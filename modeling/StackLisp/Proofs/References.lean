import StackLisp.Proofs.Frames
import StackLisp.Proofs.Growth
import StackLisp.Proofs.Sequences

/-! Every instruction of a piece of code can be encoded, and the constant that it addresses is in
the pool and of the kind that it needs. -/
namespace StackLisp

open Lower

/-- What the instructions of a family need of a constant: definitions are addressed by name, and a
function stands for its own value only if it captures nothing. -/
def Family.Accepts (functions : List Function) : Family → Constant → Prop
  | .getDef, c | .getDefPush, c => ∃ n, c = .value (.name n)
  | _, c => ∀ k, c = .function k → ∃ g, functions[k]? = some g ∧ g.captures = 0

def Opcode.family? : Opcode → Option Family
  | .wide f | .compact f _ => some f
  | _ => none

namespace Instruction

/-- What an instruction needs of the constant that it addresses. A closure is built from as many
values as its function captures. -/
def Accepts (functions : List Function) (i : Instruction) (c : Constant) : Prop :=
  match i.op with
  | .wide f | .compact f _ => f.Accepts functions c
  | .setDef => ∃ n, c = .value (.name n)
  | .buildClosure =>
    ∃ (k : Nat) (g : Function) (n : Nat), c = .function k ∧ functions[k]? = some g ∧
      g.captures = n ∧ 0 < n ∧ i.operands[1]? = some n
  | _ => True

/-- The instruction can be encoded, and the constant that it addresses serves it. -/
structure Sound (pool : List Constant) (functions : List Function) (i : Instruction) : Prop where
  fits : i.Fits
  constant : ∀ k, i.poolIndex? = some k → ∃ c, pool[k]? = some c ∧ i.Accepts functions c

variable {pool pool' : List Constant} {functions functions' : List Function} {i : Instruction}

theorem accepts_extend (h : functions <+: functions') {c : Constant}
    (ha : i.Accepts functions c) : i.Accepts functions' c := by
  have family {f : Family} (hf : f.Accepts functions c) : f.Accepts functions' c := by
    cases f <;> first
      | exact hf
      | exact fun k hk => (hf k hk).imp fun g hg => ⟨h.getElem?_eq_some hg.1, hg.2⟩
  unfold Accepts at ha ⊢
  split at ha
  · exact family ha
  · exact family ha
  · exact ha
  · obtain ⟨k, g, n, hc, hg, hn⟩ := ha
    exact ⟨k, g, n, hc, h.getElem?_eq_some hg, hn⟩
  · trivial

theorem Sound.extend (hp : pool <+: pool') (hf : functions <+: functions')
    (h : i.Sound pool functions) : i.Sound pool' functions' :=
  ⟨h.fits, fun k hk => (h.constant k hk).imp fun _ hc =>
    ⟨hp.getElem?_eq_some hc.1, accepts_extend hf hc.2⟩⟩

theorem sound_of_fits (h : i.Fits) (hn : i.poolIndex? = none) : i.Sound pool functions :=
  ⟨h, fun k hk => by simp [hn] at hk⟩

theorem fits_indexed {f : Family} {k : Nat} {extra : List Nat} (hk : k < 256)
    (hlen : extra.length = f.extraOperands) (hextra : ∀ o ∈ extra, o < 256) :
    (indexed f k extra).Fits := by
  unfold indexed Fits
  split
  · exact ⟨hlen, hextra⟩
  · exact ⟨by simp [Opcode.operandCount, hlen], by simpa [hk] using hextra⟩

theorem poolIndex?_indexed (f : Family) (k : Nat) (extra : List Nat) :
    (indexed f k extra).poolIndex? = if f.isSlot then none else some k := by
  by_cases h : k < 8 <;> simp [indexed, poolIndex?, h]

theorem slot?_indexed (f : Family) (k : Nat) (extra : List Nat) :
    (indexed f k extra).slot? = if f.isSlot then some k else none := by
  by_cases h : k < 8 <;> simp [indexed, slot?, h]

theorem accepts_indexed {f : Family} {k : Nat} {extra : List Nat} {c : Constant} :
    (indexed f k extra).Accepts functions c ↔ f.Accepts functions c := by
  by_cases h : k < 8 <;> simp [indexed, Accepts, h]

theorem sound_slot {f : Family} {s : Nat} (hf : f.isSlot = true) (hs : s < 256) :
    (indexed f s).Sound pool functions := by
  refine sound_of_fits (fits_indexed hs ?_ (by simp)) (by rw [poolIndex?_indexed, if_pos hf])
  cases f <;> simp_all [Family.isSlot, Family.extraOperands]

theorem sound_indexed {f : Family} {k : Nat} {extra : List Nat} {c : Constant}
    (hpool : pool.length ≤ Limit.constants) (hlen : extra.length = f.extraOperands)
    (hextra : ∀ o ∈ extra, o < 256) (hc : pool[k]? = some c) (ha : f.Accepts functions c) :
    (indexed f k extra).Sound pool functions := by
  have hk : k < pool.length := (List.getElem?_eq_some_iff.1 hc).1
  refine ⟨fits_indexed (Nat.lt_of_lt_of_le hk hpool) hlen hextra, fun j hj => ?_⟩
  rw [poolIndex?_indexed] at hj
  split at hj
  · cases hj
  · cases hj
    exact ⟨c, hc, accepts_indexed.2 ha⟩

/-- A load that also pushes addresses the same constant. -/
theorem Sound.pushForm {o : Opcode} (h : i.Sound pool functions) (ho : i.op.pushForm = some o) :
    ({ i with op := o } : Instruction).Sound pool functions := by
  have hcount := (Opcode.pushForm_spec ho).1
  refine ⟨⟨hcount ▸ h.fits.1, h.fits.2⟩, ?_⟩
  have hconst := h.constant
  obtain ⟨op, operands⟩ := i
  cases op with
  | wide f =>
    cases f <;> simp only [Opcode.pushForm, Family.pushForm, Option.map_some, Option.map_none,
      Option.some.injEq, reduceCtorEq] at ho <;> subst ho <;> exact hconst
  | compact f k =>
    cases f <;> simp only [Opcode.pushForm, Family.pushForm, Option.map_some, Option.map_none,
      Option.some.injEq, reduceCtorEq] at ho <;> subst ho <;> exact hconst
  | unit | truth | falsity =>
    cases ho
    exact hconst
  | _ => cases ho

end Instruction

namespace Fragment

/-- All instructions of the piece serve a function with the pool of `d`. -/
def Sound (d : Draft) (f : Fragment) : Prop :=
  ∀ i ∈ f.instructions, i.Sound d.pool d.functions

variable {d d' : Draft} {f g : Fragment}

theorem Sound.grow (h : f.Sound d) (hd : d.Extends d') : f.Sound d' :=
  fun i hi => (h i hi).extend hd.pool hd.functions

theorem sound_append : (f ++ g).Sound d ↔ f.Sound d ∧ g.Sound d := by
  simp [Sound, or_imp, forall_and]

theorem sound_instr {i : Instruction} : (instr i).Sound d ↔ i.Sound d.pool d.functions := by
  simp [Sound]

theorem sound_op {o : Opcode} {operands : List Nat}
    (h : (⟨o, operands⟩ : Instruction).Fits)
    (hn : (⟨o, operands⟩ : Instruction).poolIndex? = none) : (op o operands).Sound d :=
  sound_instr.2 (Instruction.sound_of_fits h hn)

theorem sound_count {o : Opcode} {n : Nat} (ho : o.operandCount = 1) (hn : n ≤ 255)
    (hp : (⟨o, [n]⟩ : Instruction).poolIndex? = none) : (op o [n]).Sound d :=
  sound_op ⟨ho.symm, by simpa using Nat.lt_succ_of_le hn⟩ hp

theorem Sound.pushed (h : f.Sound d) (he : f.Ends) : f.pushed.Sound d := by
  obtain ⟨front, i, hi⟩ := he
  rcases hi.pushed_cases with ⟨-, o, ho, hp⟩ | ⟨-, hp⟩
  · have hsplit : (⟨front, false⟩ ++ instr i : Fragment).Sound d := by
      simpa [Sound, hi.instructions_eq] using h
    obtain ⟨hfront, hlast⟩ := sound_append.1 hsplit
    rw [hp]
    exact sound_append.2 ⟨hfront, sound_instr.2 ((sound_instr.1 hlast).pushForm ho)⟩
  · rw [hp]
    exact sound_append.2 ⟨h, sound_op ⟨rfl, by simp⟩ rfl⟩

theorem Sound.returning (h : f.Sound d) : f.returning.Sound d := by
  unfold Fragment.returning
  split
  · exact h
  · exact sound_append.2 ⟨h, sound_op ⟨rfl, by simp⟩ rfl⟩

theorem sound_skips (count : Nat) : (⟨skips count, false⟩ : Fragment).Sound d := by
  fun_induction skips count with
  | case1 => simp [Sound, instructions]
  | case2 count _ ih =>
    have hskip : (op .skip [min count 255]).Sound d :=
      sound_count rfl (Nat.min_le_right _ _) rfl
    exact sound_append.2 ⟨hskip, ih⟩

theorem Sound.skipping (h : f.Sound d) (count : Nat) : (f.skipping count).Sound d := by
  unfold Fragment.skipping
  split
  · exact h
  · exact sound_append.2 ⟨h, sound_skips count⟩

end Fragment

namespace Lower

variable {ctx : Context} {pos : Position} {d d' : Draft} {f : Fragment}

theorem sound_callBuiltin (b : Builtin) {argc : Nat} (h : argc ≤ Limit.arguments) :
    (callBuiltin b argc).Sound d := by
  have hid : b.id.toNat < 256 := b.id.toNat_lt
  have hargc : argc < 256 := Nat.lt_succ_of_le h
  unfold callBuiltin
  split
  · exact Fragment.sound_op ⟨rfl, by simpa using hid⟩ rfl
  · exact Fragment.sound_op ⟨rfl, by simp [hid, hargc]⟩ rfl

theorem shortcut?_step {b : Builtin} {args : List (Option Value)} {o : Opcode} {i : Nat}
    (h : shortcut? b args = some (.step o i)) : o = .inc ∨ o = .dec := by
  unfold shortcut? sumShortcut differenceShortcut floorDivShortcut at h
  grind

theorem accepts_value (functions : List Function) (v : Value) :
    Family.Accepts functions .const (.value v) :=
  fun _ h => by cases h

theorem Yields.load_sound {v : Value} (h : Yields (load ctx pos v) d f d')
    (hpool : d'.pool.length ≤ Limit.constants) : f.Sound d' := by
  rcases yields_load.1 h with ⟨o, ho, rfl, -⟩ | ⟨-, i, hi, rfl⟩
  · cases v with
    | unit | bool b =>
      unfold immediate at ho
      split at ho <;> cases ho <;> exact Fragment.sound_op ⟨rfl, by simp⟩ rfl
    | _ => cases ho
  · exact Fragment.sound_instr.2
      (Instruction.sound_indexed hpool rfl (by simp) hi.interned.1 (accepts_value _ v))

theorem Yields.loadName_sound {name : Bytes} (h : Yields (loadName ctx pos name) d f d')
    (hframe : ctx.frame.Below Limit.slots) (hpool : d'.pool.length ≤ Limit.constants) :
    f.Sound d' := by
  rcases yields_loadName h with ⟨s, hs, rfl, -⟩ | ⟨v, -, hv⟩ | ⟨-, -, -, i, hi, rfl⟩
  · have hlt : s < 256 := hframe.slot (Context.lookup_eq_slot.1 hs)
    exact Fragment.sound_instr.2 (Instruction.sound_slot rfl hlt)
  · exact hv.load_sound hpool
  · exact Fragment.sound_instr.2
      (Instruction.sound_indexed hpool rfl (by simp) hi.interned.1 ⟨name, rfl⟩)

theorem sound_branch (taken : Bool) {target : Nat} (h : target ≤ Limit.target) :
    (Fragment.op (branchOn taken) [target]).Sound d := by
  cases taken <;> exact Fragment.sound_count rfl h rfl

theorem sound_loadFunction {captured : List (Bytes × Nat)} {place : Nat} {g : Function}
    (hpool : d.pool.length < Limit.constants) (hslots : ∀ c ∈ captured, c.2 < Limit.slots)
    (hcount : captured.length ≤ Limit.captures) (hg : d'.functions[place]? = some g)
    (hcaptures : g.captures = captured.length) (hd : d'.pool = d.pool ++ [.function place]) :
    (loadFunction captured d.pool.length).Sound d' := by
  have hlast : d'.pool[d.pool.length]? = some (.function place) := by simp [hd]
  unfold loadFunction
  split
  · next hnil =>
    refine Fragment.sound_instr.2 (Instruction.sound_indexed ?_ rfl (by simp) hlast ?_)
    · rw [hd, List.length_append]
      exact hpool
    · intro k hk
      cases hk
      exact ⟨g, hg, by simp [hcaptures, hnil]⟩
  · next hne =>
    refine Fragment.sound_append.2 ⟨?_, Fragment.sound_instr.2 ⟨⟨rfl, ?_⟩, ?_⟩⟩
    · intro i hi
      simp only [Fragment.instructions, captureLoads, List.filterMap_map, List.mem_filterMap,
        Function.comp, Option.some.injEq] at hi
      obtain ⟨c, hc, rfl⟩ := hi
      exact Instruction.sound_slot rfl (hslots c hc)
    · have hp : d.pool.length < 256 := hpool
      have hc : captured.length < 256 := Nat.lt_succ_of_le hcount
      simp [hp, hc]
    · intro k hk
      cases hk
      exact ⟨_, hlast, place, g, captured.length, rfl, hg, hcaptures,
        List.length_pos_iff.2 hne, rfl⟩

end Lower

namespace Emits

variable {ctx : Context} {use : Use} {base depth : Nat} {part : Part} {d d' : Draft} {f : Fragment}

/-- The values of a `let` are refused when there is no slot for them. -/
theorem values_room {bs : List (Binding Expr)} (h : Emits ctx use base depth (.values bs) d f d')
    (hne : bs ≠ []) : depth + bs.length ≤ Limit.slots := by
  induction bs generalizing base depth d f with
  | nil => exact absurd rfl hne
  | cons b rest ih =>
    cases h with
    | valuesCons hlt _ hrest =>
      by_cases hr : rest = []
      · subst hr
        exact hlt
      · have := ih hrest hr
        simp only [List.length_cons]
        omega

theorem frame_below (h : ctx.frame.Below Limit.slots) {bs : List (Binding Expr)}
    (hv : Emits ctx use base depth (.values bs) d f d') :
    (ctx.bind depth (bs.map Binding.name)).frame.Below Limit.slots := by
  refine Frame.Below.bind h fun hne => ?_
  rw [List.length_map]
  exact hv.values_room (by simpa using hne)

/-- Emitted instructions can be encoded and address constants that serve them. -/
theorem sound (h : Emits ctx use base depth part d f d') (hframe : ctx.frame.Below Limit.slots)
    (hpool : d.pool.length ≤ Limit.constants) : f.Sound d' := by
  induction h with
  | literal hy | callFolded _ _ _ _ hy =>
    exact hy.load_sound ((Draft.Extends.kept.load hy).limit hpool)
  | ident hy => exact hy.loadName_sound hframe ((Draft.Extends.kept.loadName hy).limit hpool)
  | marked _ _ ih | negation _ _ ih | callOperand _ _ _ _ _ _ ih | condTrue _ _ ih
  | condFalse _ _ ih | block _ ih | and _ _ ih | or _ _ ih | lambda _ ih | otherwiseSome _ ih
  | sequenceOne _ ih | spreadOne _ ih | operandsOne _ ih | operandAt _ _ ih =>
    exact ih hframe hpool
  | callSelf hargc _ _ _ ih =>
    refine Fragment.sound_append.2 ⟨ih hframe hpool, ?_⟩
    split <;> exact Fragment.sound_count rfl hargc rfl
  | callNamed hargc _ _ hi ha ih =>
    have hp := (Draft.Extends.kept.intern hi).limit hpool
    have hconst := ha.grows.pool.getElem?_eq_some hi.interned.1
    refine Fragment.sound_append.2 ⟨ih hframe hp, Fragment.sound_instr.2 ?_⟩
    refine Instruction.sound_indexed (ha.grows.limit hp) rfl ?_ hconst (fun _ h => by cases h)
    rintro o (_ | ⟨_, ⟨⟩⟩)
    exact Nat.lt_succ_of_le hargc
  | callUnary _ _ _ _ _ hf ih =>
    exact Fragment.sound_append.2
      ⟨(ih hframe hpool).pushed (hf.ends rfl), sound_callBuiltin _ (by decide)⟩
  | callStep _ _ _ _ hs _ ih =>
    refine Fragment.sound_append.2 ⟨ih hframe hpool, ?_⟩
    rcases shortcut?_step hs with rfl | rfl <;> exact Fragment.sound_op ⟨rfl, by simp⟩ rfl
  | callPlain hargc _ _ _ _ _ ih =>
    exact Fragment.sound_append.2 ⟨ih hframe hpool, sound_callBuiltin _ hargc⟩
  | callComputed hargc _ hf ha ih₁ ih₂ =>
    have hfn := ((ih₁ hframe hpool).pushed (hf.ends rfl)).grow ha.grows
    refine Fragment.sound_append.2
      ⟨Fragment.sound_append.2 ⟨hfn, ih₂ hframe (hf.grows.limit hpool)⟩, ?_⟩
    exact Fragment.sound_count rfl hargc rfl
  | applySelf _ hargc _ _ _ ih =>
    refine Fragment.sound_append.2 ⟨ih hframe hpool, ?_⟩
    split <;> exact Fragment.sound_count rfl hargc rfl
  | applyComputed _ hargc _ _ hf ha ih₁ ih₂ =>
    have hfn := ((ih₁ hframe hpool).pushed (hf.ends rfl)).grow ha.grows
    refine Fragment.sound_append.2
      ⟨Fragment.sound_append.2 ⟨hfn, ih₂ hframe (hf.grows.limit hpool)⟩, ?_⟩
    exact Fragment.sound_count rfl hargc rfl
  | condTail _ ht hy htarget hle hn ih₁ ih₂ ih₃ =>
    have hp₁ := ht.grows.limit hpool
    have hp₂ := hy.grows.limit hp₁
    refine Fragment.sound_append.2 ⟨Fragment.sound_append.2 ⟨Fragment.sound_append.2 ⟨?_, ?_⟩, ?_⟩,
      ih₃ hframe hp₂⟩
    · exact (ih₁ hframe hpool).grow (hy.grows.trans hn.grows)
    · exact sound_branch _ hle
    · exact (ih₂ hframe hp₁).returning.grow hn.grows
  | condValue _ _ ht hy _ hle hn hstop ih₁ ih₂ ih₃ =>
    have hp₁ := ht.grows.limit hpool
    have hp₂ := hy.grows.limit hp₁
    refine Fragment.sound_append.2 ⟨Fragment.sound_append.2 ⟨Fragment.sound_append.2
      ⟨Fragment.sound_append.2 ⟨?_, ?_⟩, ?_⟩, ?_⟩, ih₃ hframe hp₂⟩
    · exact (ih₁ hframe hpool).grow (hy.grows.trans hn.grows)
    · exact sound_branch _ hle
    · exact (ih₂ hframe hp₁).grow hn.grows
    · exact Fragment.sound_count rfl hstop rfl
  | letTail hv hb ih₁ ih₂ =>
    exact Fragment.sound_append.2 ⟨(ih₁ hframe hpool).grow hb.grows.of_slots,
      ih₂ (hv.frame_below hframe) (hv.grows.limit hpool)⟩
  | letValue _ hv hb ih₁ ih₂ =>
    exact (Fragment.sound_append.2 ⟨(ih₁ hframe hpool).grow hb.grows.of_slots,
      ih₂ (hv.frame_below hframe) (hv.grows.limit hpool)⟩).skipping _
  | andEmpty | orEmpty | otherwiseNone | sequenceNil | operandAtNone =>
    exact Fragment.sound_op ⟨rfl, by simp⟩ rfl
  | function _ hc hcount _ _ _ hpool' =>
    subst hc
    exact sound_loadFunction hpool' (fun c hc => hframe.slot (mem_capturedBy.1 hc).2.2) hcount
      List.getElem?_concat_length rfl rfl
  | sequenceCons _ hf hg ih₁ ih₂ =>
    exact Fragment.sound_append.2
      ⟨(ih₁ hframe hpool).grow hg.grows, ih₂ hframe (hf.grows.limit hpool)⟩
  | argumentsCons hf hg ih₁ ih₂ | spreadCons _ hf hg ih₁ ih₂ | valuesCons _ hf hg ih₁ ih₂ =>
    exact Fragment.sound_append.2 ⟨((ih₁ hframe hpool).pushed (hf.ends rfl)).grow hg.grows,
      ih₂ hframe (hf.grows.limit hpool)⟩
  | operandsCons _ hf hg _ hle ih₁ ih₂ =>
    exact Fragment.sound_append.2 ⟨Fragment.sound_append.2
      ⟨(ih₁ hframe hpool).grow hg.grows, sound_branch _ hle⟩,
      ih₂ hframe (hf.grows.limit hpool)⟩
  | argumentsNil | valuesNil => exact fun i hi => by simp at hi

end Emits
end StackLisp
