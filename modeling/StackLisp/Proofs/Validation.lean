import StackLisp.Proofs.Copies
import StackLisp.Proofs.Splitting

/-! What validation accepts: the images in which all that the code of the reachable functions refers
to is there. The checks are also stated with every read by place made explicit, and no read goes
outside of what it reads from, whatever the image. -/
namespace StackLisp

/-! ### What instructions refer to -/

/-- The families that address the constant pool. -/
def Family.pooled : List Family := [.const, .constPush, .getDef, .getDefPush, .callConst]

theorem Family.mem_pooled {f : Family} : f ∈ pooled ↔ f.isSlot = false := by
  cases f <;> decide

namespace Instruction

/-- The instruction addresses the constant `k`: a compact code holds the index, the others have it
as their first operand. -/
inductive Addresses : Instruction → Nat → Prop where
  | compact {f : Family} {k : Fin 8} {extra : List Nat} :
      f ∈ Family.pooled → Addresses ⟨.compact f k, extra⟩ k
  | wide {f : Family} {k : Nat} {extra : List Nat} :
      f ∈ Family.pooled → Addresses ⟨.wide f, k :: extra⟩ k
  | setDef {k : Nat} : Addresses ⟨.setDef, [k]⟩ k
  | buildClosure {k count : Nat} : Addresses ⟨.buildClosure, [k, count]⟩ k

/-- The instruction is a jump to the offset `t`. -/
def JumpsTo (i : Instruction) (t : Nat) : Prop :=
  ∃ o ∈ [Opcode.jump, .jumpIf, .jumpIfNot], i = ⟨o, [t]⟩

variable {i : Instruction} {k t : Nat}

/-- The operands of an instruction, by their number. -/
theorem Fits.operands_cases (h : i.Fits) :
    (i.op.operandCount = 0 ∧ i.operands = []) ∨
    (i.op.operandCount = 1 ∧ ∃ a, i.operands = [a]) ∨
    (i.op.operandCount = 2 ∧ ∃ a b, i.operands = [a, b]) := by
  have hcount := i.op.operandCount_le
  have hlength := h.1
  rcases hoperands : i.operands with _ | ⟨a, _ | ⟨b, _ | ⟨c, rest⟩⟩⟩ <;>
    rw [hoperands] at hlength <;> simp only [List.length_nil, List.length_cons] at hlength
  · exact .inl ⟨hlength.symm, rfl⟩
  · exact .inr (.inl ⟨hlength.symm, a, rfl⟩)
  · exact .inr (.inr ⟨hlength.symm, a, b, rfl⟩)
  · omega

theorem Fits.one_operand (h : i.Fits) (hop : i.op.operandCount = 1) :
    ∃ a, i = ⟨i.op, [a]⟩ := by
  obtain ⟨o, operands⟩ := i
  rcases h.operands_cases with ⟨hzero, -⟩ | ⟨-, a, ha⟩ | ⟨htwo, -⟩
  · omega
  · exact ⟨a, congrArg _ ha⟩
  · omega

theorem Fits.two_operands (h : i.Fits) (hop : i.op.operandCount = 2) :
    ∃ a b, i = ⟨i.op, [a, b]⟩ := by
  obtain ⟨o, operands⟩ := i
  rcases h.operands_cases with ⟨hzero, -⟩ | ⟨hone, -⟩ | ⟨-, a, b, hab⟩
  · omega
  · omega
  · exact ⟨a, b, congrArg _ hab⟩

theorem addresses_iff (h : i.Fits) : i.Addresses k ↔ i.poolIndex? = some k := by
  constructor
  · intro ha
    cases ha with
    | compact hf | wide hf =>
      rw [Family.mem_pooled] at hf
      simp [poolIndex?, hf]
    | setDef | buildClosure => rfl
  · obtain ⟨o, operands⟩ := i
    intro hk
    cases o with
    | compact f j =>
      cases hf : f.isSlot <;> simp only [poolIndex?, hf] at hk <;> cases hk
      exact .compact (Family.mem_pooled.2 hf)
    | wide f =>
      cases hf : f.isSlot <;> simp only [poolIndex?, hf] at hk
      · obtain ⟨rest, rfl⟩ := List.head?_eq_some_iff.1 hk
        exact .wide (Family.mem_pooled.2 hf)
      · cases hk
    | setDef =>
      obtain ⟨a, ha⟩ := h.one_operand rfl
      cases ha
      cases hk
      exact .setDef
    | buildClosure =>
      obtain ⟨a, b, hab⟩ := h.two_operands rfl
      cases hab
      cases hk
      exact .buildClosure
    | _ => cases hk

theorem jumpsTo_iff (h : i.Fits) : i.JumpsTo t ↔ i.target? = some t := by
  constructor
  · rintro ⟨o, ho, rfl⟩
    simp only [List.mem_cons, List.not_mem_nil, or_false] at ho
    rcases ho with rfl | rfl | rfl <;> rfl
  · intro ht
    unfold target? at ht
    split at ht
    · next hjump =>
      have hmem : i.op ∈ [Opcode.jump, .jumpIf, .jumpIfNot] := by
        cases hop : i.op <;> simp_all [Opcode.isJump]
      have hcount : i.op.operandCount = 1 := by
        cases hop : i.op <;> simp_all [Opcode.isJump, Opcode.operandCount]
      obtain ⟨a, ha⟩ := h.one_operand hcount
      rw [ha] at ht
      cases ht
      exact ⟨i.op, hmem, ha⟩
    · cases ht

end Instruction

namespace Image

open Instruction (Placed)

variable {img : Image} {f : Function} {p : Placed}

/-- All that the instruction `i` of the function `f` refers to is there: the constant, the offset
that a jump leads to, which may be that of the end, and the function of a closure, which captures as
many values as it is given. -/
structure Resolves (img : Image) (f : Function) (i : Instruction) : Prop where
  constant : ∀ k, i.Addresses k → k < f.constants.length
  target : ∀ t, i.JumpsTo t → t ≤ f.bytes.length
  closure : ∀ k n : Nat, i = ⟨.buildClosure, [k, n]⟩ → ∃ (j : Nat) (g : Function),
    f.constants[k]? = some (.function j) ∧ img.get? j = some g ∧ g.captures = n

/-- The code of the function is that of instructions with their operands, and all that they refer to
is there. -/
def Resolved (img : Image) (f : Function) : Prop :=
  ∃ is : List Instruction, (∀ i ∈ is, i.Fits) ∧ Instruction.encode is = f.bytes ∧
    ∀ i ∈ is, img.Resolves f i

/-- The functions that a function refers to are in the image. -/
def Closed (img : Image) (f : Function) : Prop := ∀ j ∈ f.references, ∃ g, img.get? j = some g

/-- The order of the functions can be decided. -/
theorem ordered_of_forall (h : ∀ (i : Nat) (hi : i < img.functions.length),
    ∀ j ∈ img.functions[i].references, j < i) : img.Ordered := by
  intro i f hf j hj
  obtain ⟨hi, rfl⟩ := List.getElem?_eq_some_iff.1 hf
  exact h i hi j hj

theorem Holds.closed (hordered : img.Ordered) (h : img.Holds f) : img.Closed f := by
  obtain ⟨i, -, hi⟩ := h
  intro j hj
  have hlt := hordered i f hi j hj
  have hlength := (List.getElem?_eq_some_iff.1 hi).1
  exact ⟨_, List.getElem?_eq_getElem (Nat.lt_trans hlt hlength)⟩

/-! ### The checks -/

theorem checkIndex_ok_iff :
    checkIndex f p = .ok () ↔ ∀ k, p.instr.poolIndex? = some k → k < f.constants.length := by
  unfold checkIndex
  cases p.instr.poolIndex? with
  | none => simp
  | some k => by_cases hk : k < f.constants.length <;> simp [hk]

theorem checkTarget_ok_iff :
    checkTarget f p = .ok () ↔ ∀ t, p.instr.target? = some t → t ≤ f.bytes.length := by
  unfold checkTarget
  cases p.instr.target? with
  | none => simp
  | some t => by_cases ht : t ≤ f.bytes.length <;> simp [ht]

theorem checkClosure_ok_iff (hclosed : img.Closed f) :
    checkClosure img f p = .ok () ↔ ∀ k n : Nat, p.instr = ⟨.buildClosure, [k, n]⟩ →
      ∃ (j : Nat) (g : Function), f.constants[k]? = some (.function j) ∧ img.get? j = some g ∧
        g.captures = n := by
  unfold checkClosure
  split
  · next k n hi =>
    rw [hi]
    cases hc : f.constants[k]? with
    | none => simp [hc]
    | some c =>
      cases c with
      | value v => simp [hc]
      | foreign => simp [hc]
      | function j =>
        obtain ⟨g, hg⟩ := hclosed j (List.mem_filterMap.2 ⟨_, List.mem_of_getElem? hc, rfl⟩)
        by_cases hn : (n : Int) = g.captures
        · simp [hc, hg, hn]
        · simp [hc, hg, hn, Ne.symm hn]
  · next hne =>
    refine ⟨fun _ k n hi => absurd hi (hne k n), fun _ => rfl⟩

theorem checkInstruction_ok_iff (hclosed : img.Closed f) (hfits : p.instr.Fits) :
    checkInstruction img f p = .ok () ↔ img.Resolves f p.instr := by
  have hand {a b c : Except CodeFault Unit} :
      (do a; b; c) = .ok () ↔ a = .ok () ∧ b = .ok () ∧ c = .ok () := by
    cases a <;> cases b <;> simp [bind, Except.bind]
  rw [checkInstruction, hand, checkIndex_ok_iff, checkTarget_ok_iff, checkClosure_ok_iff hclosed]
  constructor
  · rintro ⟨hindex, htarget, hclosure⟩
    exact ⟨fun k hk => hindex k ((Instruction.addresses_iff hfits).1 hk),
      fun t ht => htarget t ((Instruction.jumpsTo_iff hfits).1 ht), hclosure⟩
  · intro h
    exact ⟨fun k hk => h.constant k ((Instruction.addresses_iff hfits).2 hk),
      fun t ht => h.target t ((Instruction.jumpsTo_iff hfits).2 ht), h.closure⟩

theorem checkFunction_ok_iff (hclosed : img.Closed f) :
    checkFunction img f = .ok () ↔ img.Resolved f := by
  unfold checkFunction
  constructor
  · intro h
    cases hdecode : Instruction.decode f.bytes with
    | error fault => simp [hdecode] at h
    | ok ps =>
      simp only [hdecode] at h
      rw [List.forM_eq_ok_iff] at h
      obtain ⟨hfits, hcode, -⟩ := Instruction.decode_eq_ok_iff.1 hdecode
      refine ⟨ps.map Placed.instr, List.forall_mem_map.2 hfits, hcode, ?_⟩
      exact List.forall_mem_map.2 fun p hp =>
        (checkInstruction_ok_iff hclosed (hfits p hp)).1 (h p hp)
  · rintro ⟨is, hfits, hcode, hresolves⟩
    rw [← hcode, Instruction.decode_encode hfits]
    refine List.forM_eq_ok_iff.2 fun p hp => ?_
    have hi := Instruction.instr_mem_of_placed hp
    exact (checkInstruction_ok_iff hclosed (hfits _ hi)).2 (hresolves _ hi)

theorem validate_ok_iff_resolved (hordered : img.Ordered) (hne : img.functions ≠ []) :
    img.validate = .ok () ↔ ∀ f, img.Holds f → img.Resolved f := by
  rw [validate_ok_iff]
  refine forall_congr' fun f => ?_
  rw [mem_flattened hordered hne]
  exact forall_congr' fun hf => checkFunction_ok_iff (hf.closed hordered)

end Image

/-! ### Reads by place -/

/-- A computation that reads by place: it has no result if a read goes outside. -/
abbrev Reads (ε α : Type) := ExceptT ε Option α

namespace Reads

variable {ε ε' α β : Type}

/-- The element at a place. -/
def pick (xs : List α) (k : Nat) : Reads ε α := ExceptT.lift xs[k]?

/-- The elements from one place up to another. -/
def slice (xs : List α) (start stop : Nat) : Reads ε (List α) :=
  ExceptT.lift (if start ≤ stop ∧ stop ≤ xs.length then some ((xs.take stop).drop start) else none)

def mapFault (g : ε → ε') (m : Reads ε α) : Reads ε' α := ExceptT.adapt g m

/-- All reads stay inside, and the result is `x`. -/
def Answers (m : Reads ε α) (x : Except ε α) : Prop := m = some x

theorem answers_pure (a : α) : (pure a : Reads ε α).Answers (.ok a) := rfl

theorem answers_throw (e : ε) : (throw e : Reads ε α).Answers (.error e) := rfl

theorem answers_pick {xs : List α} {k : Nat} {a : α} (h : xs[k]? = some a) :
    (pick xs k : Reads ε α).Answers (.ok a) := by
  unfold Answers pick
  rw [h]
  rfl

theorem answers_slice {xs : List α} {start stop : Nat} (h : start ≤ stop)
    (hstop : stop ≤ xs.length) :
    (slice xs start stop : Reads ε (List α)).Answers (.ok ((xs.take stop).drop start)) := by
  unfold Answers slice
  rw [if_pos ⟨h, hstop⟩]
  rfl

/-- What comes behind a step is reached only if the step succeeds. -/
theorem Answers.bind {m : Reads ε α} {x : Except ε α} {k : α → Reads ε β} {y : α → Except ε β}
    (hm : m.Answers x) (hk : ∀ a, x = .ok a → (k a).Answers (y a)) :
    Answers (m >>= k) (x >>= y) := by
  change m = some x at hm
  subst hm
  cases x with
  | error e => rfl
  | ok a => exact hk a rfl

theorem Answers.step {m : Reads ε α} {a : α} {k : α → Reads ε β} {y : Except ε β}
    (hm : m.Answers (.ok a)) (hk : (k a).Answers y) : Answers (m >>= k) y := by
  change m = some (.ok a) at hm
  subst hm
  exact hk

theorem Answers.forM {g : α → Reads ε Unit} {check : α → Except ε Unit} {xs : List α}
    (h : ∀ x ∈ xs, (g x).Answers (check x)) : Answers (xs.forM g) (xs.forM check) := by
  induction xs with
  | nil => rfl
  | cons x xs ih =>
    obtain ⟨hx, hxs⟩ := List.forall_mem_cons.1 h
    exact hx.bind fun _ _ => ih hxs

theorem Answers.mapFault {m : Reads ε α} {x : Except ε α} (h : m.Answers x) (g : ε → ε') :
    (mapFault g m).Answers (x.mapError g) := by
  change m = some x at h
  subst h
  cases x <;> rfl

end Reads

namespace ByPlace

open Instruction (Placed DecodeFault Blocked startingAt? encode placeFrom totalSize)
open Image (CodeFault)
open Reads (pick slice)

/-- The instruction at an offset. -/
def instructionAt (code : Bytes) (offset : Nat) : Reads DecodeFault Placed := do
  let b ← pick code offset
  match Opcode.ofNumber? b.toNat with
  | none => throw (.unknown b.toNat offset)
  | some op =>
    if code.length < offset + 1 + op.operandCount then throw (.truncated op offset)
    else do
      let operands ← slice code (offset + 1) (offset + 1 + op.operandCount)
      pure ⟨offset, ⟨op, operands.map UInt8.toNat⟩⟩

/-- The instructions from an offset on. -/
def decodeFrom (code : Bytes) (offset : Nat) : Reads DecodeFault (List Placed) :=
  if offset < code.length then do
    let p ← instructionAt code offset
    let ps ← decodeFrom code (offset + p.instr.size)
    pure (p :: ps)
  else pure []
termination_by code.length - offset
decreasing_by
  have hpos := p.instr.size_pos
  omega

/-- The constant that an instruction addresses. The index of a slot is read in the same way. -/
def poolIndex (i : Instruction) : Reads CodeFault (Option Nat) :=
  match i.op with
  | .compact f k => pure (if f.isSlot then none else some k)
  | .wide f => do
    let k ← pick i.operands 0
    pure (if f.isSlot then none else some k)
  | .setDef | .buildClosure => do
    let k ← pick i.operands 0
    pure (some k)
  | _ => pure none

def checkIndex (f : Function) (p : Placed) : Reads CodeFault Unit := do
  match ← poolIndex p.instr with
  | some k =>
    if f.constants.length ≤ k then throw (.constantOutOfRange p.instr.op p.offset k) else pure ()
  | none => pure ()

def checkTarget (f : Function) (p : Placed) : Reads CodeFault Unit :=
  if p.instr.op.isJump then do
    let t ← pick p.instr.operands 0
    if f.bytes.length < t then throw (.targetOutOfRange p.instr.op p.offset t) else pure ()
  else pure ()

/-- The pool is read without another look at its length. -/
def checkClosure (img : Image) (f : Function) (p : Placed) : Reads CodeFault Unit :=
  if p.instr.op = .buildClosure then do
    let k ← pick p.instr.operands 0
    match ← pick f.constants k with
    | .function j => do
      let g ← pick img.functions j
      let n ← pick p.instr.operands 1
      if (n : Int) = g.captures then pure () else throw (.captureMismatch p.offset n g.captures)
    | _ => throw (.notFunction p.offset k)
  else pure ()

def checkFunction (img : Image) (f : Function) : Reads CodeFault Unit := do
  let ps ← (decodeFrom f.bytes 0).mapFault .undecodable
  ps.forM fun p => do
    checkIndex f p
    checkTarget f p
    checkClosure img f p

/-- Validation with all its reads. -/
def validate (img : Image) : Reads Image.Fault Unit :=
  img.flattened.forM fun f => (checkFunction img f).mapFault fun fault => ⟨f.name, fault⟩

variable {code front rest : Bytes} {n : Nat} {p : Placed} {fault : DecodeFault}
  {is : List Instruction} {img : Image} {f : Function}

theorem instructionAt_startingAt? (h : startingAt? code n = some p) :
    (instructionAt code n).Answers (.ok p) := by
  unfold startingAt? at h
  split at h
  · cases h
  · next b rest hdrop =>
    split at h
    · cases h
    · next op hop =>
      split at h
      · next hcount =>
        cases h
        have hb : code[n]? = some b := by
          rw [← List.head?_drop, hdrop, List.head?_cons]
        have hrest : rest = code.drop (n + 1) := by
          rw [← List.tail_drop, hdrop, List.tail_cons]
        have hlength : n + 1 + op.operandCount ≤ code.length := by
          have hlt := (List.getElem?_eq_some_iff.1 hb).1
          rw [hrest, List.length_drop] at hcount
          omega
        have hoperands : (code.take (n + 1 + op.operandCount)).drop (n + 1) =
            rest.take op.operandCount := by
          rw [hrest, List.take_drop]
        refine (Reads.answers_pick hb).step ?_
        simp only [hop, if_neg (Nat.not_lt_of_le hlength)]
        rw [← hoperands]
        exact (Reads.answers_slice (Nat.le_add_right _ _) hlength).step (Reads.answers_pure _)
      · cases h

theorem instructionAt_blocked (h : Blocked n (code.drop n) fault) :
    (instructionAt code n).Answers (.error fault) := by
  generalize hdrop : code.drop n = left at h
  have hfirst {b : UInt8} {rest : Bytes} (hleft : left = b :: rest) : code[n]? = some b := by
    rw [← List.head?_drop, hdrop, hleft, List.head?_cons]
  cases h with
  | @unknown b rest hop =>
    refine (Reads.answers_pick (hfirst rfl)).step ?_
    simp only [hop]
    exact Reads.answers_throw _
  | @truncated b op rest hop hfew =>
    have hlength : code.length < n + 1 + op.operandCount := by
      have hdropped := congrArg List.length hdrop
      rw [List.length_drop, List.length_cons] at hdropped
      omega
    refine (Reads.answers_pick (hfirst rfl)).step ?_
    simp only [hop, if_pos hlength]
    exact Reads.answers_throw _

theorem decodeFrom_end (h : code.length ≤ n) : (decodeFrom code n).Answers (.ok []) := by
  rw [decodeFrom, if_neg (Nat.not_lt_of_le h)]
  exact Reads.answers_pure _

theorem decodeFrom_blocked (h : Blocked n (code.drop n) fault) :
    (decodeFrom code n).Answers (.error fault) := by
  have hlt : n < code.length := by
    by_contra hle
    rw [List.drop_eq_nil_of_le (Nat.le_of_not_lt hle)] at h
    cases h
  rw [decodeFrom, if_pos hlt]
  exact (instructionAt_blocked h).bind (y := fun _ => .error fault) fun _ h => by cases h

/-- Complete instructions are read one by one. -/
theorem decodeFrom_encode (his : ∀ i ∈ is, i.Fits) (hn : n = front.length)
    {x : Except DecodeFault (List Placed)}
    (hrest : (decodeFrom (front ++ (encode is ++ rest)) (n + totalSize is)).Answers x) :
    (decodeFrom (front ++ (encode is ++ rest)) n).Answers (x.map (placeFrom n is ++ ·)) := by
  induction is generalizing front n with
  | nil =>
    cases x <;> exact hrest
  | cons i is ih =>
    obtain ⟨hi, his⟩ := List.forall_mem_cons.1 his
    have hcode : front ++ (encode (i :: is) ++ rest) =
        front ++ (i.bytes ++ (encode is ++ rest)) := by
      rw [encode, List.flatMap_cons, List.append_assoc]
      rfl
    have hfirst := Instruction.startingAt?_bytes hi hn (encode is ++ rest)
    have hnext : n + i.size = (front ++ i.bytes).length := by
      rw [List.length_append, Instruction.length_bytes, hn]
    have hlt : n < (front ++ (i.bytes ++ (encode is ++ rest))).length :=
      Instruction.lt_length_of_startingAt? hfirst
    rw [hcode, Instruction.totalSize_cons, ← Nat.add_assoc, ← List.append_assoc] at hrest
    have hlater := ih his hnext hrest
    rw [List.append_assoc] at hlater
    rw [hcode, decodeFrom, if_pos hlt]
    refine (instructionAt_startingAt? hfirst).step ?_
    have hall := hlater.bind (y := fun ps => .ok (⟨n, i⟩ :: ps)) fun ps _ => Reads.answers_pure _
    cases x <;> exact hall

/-- Decoding reads nothing outside of the code. -/
theorem answers_decode (code : Bytes) :
    (decodeFrom code 0).Answers (Instruction.decode code) := by
  obtain ⟨is, rest, his, rfl, hrest⟩ := Instruction.exists_split code
  have hdrop : (encode is ++ rest).drop (totalSize is) = rest := by
    rw [← Instruction.length_encode, List.drop_left]
  have hfrom {x : Except DecodeFault (List Placed)}
      (hx : (decodeFrom (encode is ++ rest) (totalSize is)).Answers x) :
      (decodeFrom (encode is ++ rest) 0).Answers (x.map (placeFrom 0 is ++ ·)) :=
    decodeFrom_encode his List.length_nil.symm (by rwa [Nat.zero_add, List.nil_append])
  rcases hrest with rfl | hblocked
  · rw [List.append_nil] at hfrom ⊢
    have hwhole := hfrom (decodeFrom_end (Nat.le_of_eq (Instruction.length_encode is)))
    rw [Except.map, List.append_nil] at hwhole
    rwa [Instruction.decode_encode his]
  · obtain ⟨fault, hfault⟩ := hblocked (totalSize is)
    rw [Instruction.decode_blocked his hfault]
    exact hfrom (decodeFrom_blocked (hdrop.symm ▸ hfault))

theorem answers_poolIndex {i : Instruction} (h : i.Fits) :
    (poolIndex i).Answers (.ok i.poolIndex?) := by
  obtain ⟨o, operands⟩ := i
  -- A code with an index operand has at least one operand.
  have hhead (hpos : 0 < o.operandCount) : ∃ k rest, operands = k :: rest := by
    have hlength : operands.length = o.operandCount := h.1
    exact List.exists_cons_of_length_pos (by omega)
  cases o with
  | compact f k => exact Reads.answers_pure _
  | wide f =>
    obtain ⟨k, rest, rfl⟩ := hhead (Nat.succ_pos _)
    exact (Reads.answers_pick rfl).step (Reads.answers_pure _)
  | setDef | buildClosure =>
    obtain ⟨k, rest, rfl⟩ := hhead (by decide)
    exact (Reads.answers_pick rfl).step (Reads.answers_pure _)
  | _ => exact Reads.answers_pure _

theorem answers_checkIndex (h : p.instr.Fits) :
    (checkIndex f p).Answers (Image.checkIndex f p) := by
  refine (answers_poolIndex h).step ?_
  unfold Image.checkIndex
  cases p.instr.poolIndex? with
  | none => exact Reads.answers_pure _
  | some k =>
    by_cases hk : k < f.constants.length
    · simp only [if_pos hk, if_neg (Nat.not_le_of_lt hk)]
      exact Reads.answers_pure _
    · simp only [if_neg hk, if_pos (Nat.le_of_not_lt hk)]
      exact Reads.answers_throw _

theorem answers_checkTarget (h : p.instr.Fits) :
    (checkTarget f p).Answers (Image.checkTarget f p) := by
  unfold checkTarget Image.checkTarget Instruction.target?
  cases hjump : p.instr.op.isJump with
  | false => exact Reads.answers_pure _
  | true =>
    have hcount : p.instr.op.operandCount = 1 := by
      cases hop : p.instr.op <;> simp_all [Opcode.isJump, Opcode.operandCount]
    obtain ⟨t, ht⟩ := h.one_operand hcount
    have hoperands : p.instr.operands = [t] := by rw [ht]
    simp only [hoperands, if_true]
    refine (Reads.answers_pick rfl).step ?_
    by_cases hle : t ≤ f.bytes.length
    · simp only [List.head?_cons, if_pos hle, if_neg (Nat.not_lt_of_le hle)]
      exact Reads.answers_pure _
    · simp only [List.head?_cons, if_neg hle, if_pos (Nat.lt_of_not_le hle)]
      exact Reads.answers_throw _

/-- A closure is checked only behind its index, so the pool has the constant that is read. -/
theorem answers_checkClosure (hclosed : img.Closed f) (h : p.instr.Fits)
    (hindex : Image.checkIndex f p = .ok ()) :
    (checkClosure img f p).Answers (Image.checkClosure img f p) := by
  unfold checkClosure
  split
  · next hop =>
    obtain ⟨k, n, hi⟩ := h.two_operands (by rw [hop]; rfl)
    rw [hop] at hi
    have hk : k < f.constants.length := by
      refine Image.checkIndex_ok_iff.1 hindex k ?_
      rw [hi]
      rfl
    have hoperands : p.instr.operands = [k, n] := by rw [hi]
    have hconstant := List.getElem?_eq_getElem hk
    unfold Image.checkClosure
    simp only [hi, hconstant]
    refine (Reads.answers_pick rfl).step ((Reads.answers_pick hconstant).step ?_)
    cases hc : f.constants[k] with
    | value v => exact Reads.answers_throw _
    | foreign => exact Reads.answers_throw _
    | function j =>
      rw [hc] at hconstant
      obtain ⟨g, hg⟩ := hclosed j (List.mem_filterMap.2 ⟨_, List.mem_of_getElem? hconstant, rfl⟩)
      refine (Reads.answers_pick hg).step ((Reads.answers_pick rfl).step ?_)
      simp only [hg, Option.map_some, Option.getD_some]
      split
      · exact Reads.answers_pure _
      · exact Reads.answers_throw _
  · next hop =>
    unfold Image.checkClosure
    split
    · next hi => exact absurd (by rw [hi]) hop
    · exact Reads.answers_pure _

theorem answers_checkFunction (hclosed : img.Closed f) :
    (checkFunction img f).Answers (Image.checkFunction img f) := by
  have hdecode := (answers_decode f.bytes).mapFault CodeFault.undecodable
  have hchecks : Image.checkFunction img f =
      (Instruction.decode f.bytes).mapError CodeFault.undecodable >>= fun ps =>
        ps.forM (Image.checkInstruction img f) := by
    unfold Image.checkFunction
    cases Instruction.decode f.bytes <;> rfl
  rw [hchecks]
  refine hdecode.bind fun ps hps => .forM fun p hp => ?_
  have hfits : p.instr.Fits := by
    cases hd : Instruction.decode f.bytes with
    | error fault =>
      rw [hd] at hps
      cases hps
    | ok qs =>
      rw [hd] at hps
      cases hps
      exact (Instruction.decode_eq_ok_iff.1 hd).1 p hp
  exact (answers_checkIndex hfits).bind fun _ hindex =>
    (answers_checkTarget hfits).bind fun _ _ => answers_checkClosure hclosed hfits hindex

theorem answers_validate (hordered : img.Ordered) (hne : img.functions ≠ []) :
    (validate img).Answers img.validate := by
  refine .forM fun f hf => ?_
  have hholds := (Image.mem_flattened hordered hne).1 hf
  exact (answers_checkFunction (hholds.closed hordered)).mapFault _

end ByPlace

/-- Validation accepts an image exactly if, in all functions that the entry reaches, the code is
made of instructions and all that they refer to is there; and of no image does it read outside of
the code, the operands or the pools. -/
theorem Image.validate_accepts {img : Image} (hordered : img.Ordered) (hne : img.functions ≠ []) :
    (img.validate = .ok () ↔ ∀ f, img.Holds f → img.Resolved f) ∧
      (ByPlace.validate img).Answers img.validate :=
  ⟨validate_ok_iff_resolved hordered hne, ByPlace.answers_validate hordered hne⟩

/-- A jump over a constant to a closure over a parameter. -/
def Image.chooser : Image :=
  ⟨[{ captures := 1, code := some [2, 87] },
    { params := 1, constants := [.function 0, .value (.int 7)],
      code := some [74, 4, 21, 87, 11, 72, 0, 1, 87] }]⟩

theorem Image.chooser_accepted :
    chooser.Ordered ∧ chooser.functions ≠ [] ∧ chooser.validate = .ok () ∧
      (∀ f, chooser.Holds f → chooser.Resolved f) ∧
      (ByPlace.validate chooser).Answers (.ok ()) := by
  have hordered : chooser.Ordered := ordered_of_forall (by decide)
  have hne : chooser.functions ≠ [] := by decide
  have hvalid : chooser.validate = .ok () := by decide +kernel
  obtain ⟨hiff, hreads⟩ := validate_accepts hordered hne
  exact ⟨hordered, hne, hvalid, hiff.1 hvalid, hvalid ▸ hreads⟩

/-- A jump to the end of its code, where no instruction stands. -/
def Image.runaway : Image := ⟨[{ code := some [73, 2] }]⟩

theorem Image.runaway_accepted :
    runaway.validate = .ok () ∧ ∃ f, runaway.Holds f ∧
      Instruction.decode f.bytes = .ok [⟨0, ⟨.jump, [2]⟩⟩] ∧ ¬ 2 < f.bytes.length := by
  refine ⟨by decide +kernel, _, ⟨0, .refl, rfl⟩, by decide, by decide⟩

end StackLisp
