import StackLisp.Proofs.CallCounts

/-! Constant pools. Constants are put into a pool before the code that addresses them is known, and
yet the pool of a compiled function holds nothing twice, nothing that its code does not address, and
each function for one instruction only. -/
namespace StackLisp

open Fragment (op instr)
open Lower

/-- A load that also pushes addresses the same constant. -/
theorem Instruction.poolIndex?_pushForm {i : Instruction} {o : Opcode}
    (h : i.op.pushForm = some o) :
    ({ i with op := o } : Instruction).poolIndex? = i.poolIndex? := by
  obtain ⟨p, operands⟩ := i
  cases p with
  | wide f | compact f k =>
    obtain ⟨f', hf, rfl⟩ := Option.map_eq_some_iff.1 h
    cases f <;> cases hf <;> rfl
  | unit | truth | falsity =>
    cases h
    rfl
  | _ => cases h

namespace Fragment

/-- The indexes of the constants that the instructions of a piece of code address. -/
def indexes (f : Fragment) : List Nat := f.instructions.filterMap Instruction.poolIndex?

variable {f g : Fragment}

theorem indexes_append (f g : Fragment) : (f ++ g).indexes = f.indexes ++ g.indexes := by
  rw [indexes, instructions_append, List.filterMap_append]
  rfl

theorem indexes_indexed {family : Family} (h : family.isSlot = false) (k : Nat)
    (extra : List Nat) : (instr (.indexed family k extra)).indexes = [k] := by
  rw [indexes, instructions_instr, List.filterMap_cons_some (b := k), List.filterMap_nil]
  rw [Instruction.poolIndex?_indexed, h]
  rfl

theorem indexes_slot {family : Family} (h : family.isSlot = true) (s : Nat) :
    (instr (.indexed family s)).indexes = [] := by
  rw [indexes, instructions_instr, List.filterMap_cons_none, List.filterMap_nil]
  rw [Instruction.poolIndex?_indexed, if_pos h]

theorem indexes_pushed (h : f.Ends) : f.pushed.indexes = f.indexes := by
  obtain ⟨front, i, hi⟩ := h
  rcases hi.pushed_cases with ⟨-, o, ho, hp⟩ | ⟨-, hp⟩
  · have hend : (instr { i with op := o }).indexes = (instr i).indexes := by
      rw [indexes, indexes, instructions_instr, instructions_instr, List.filterMap_cons,
        List.filterMap_cons, Instruction.poolIndex?_pushForm ho]
    have hnew : f.pushed.indexes =
        (⟨front, false⟩ : Fragment).indexes ++ (instr { i with op := o }).indexes := by
      rw [hp]
      exact indexes_append ⟨front, false⟩ (instr { i with op := o })
    rw [hnew, hend, indexes, indexes, indexes, hi.instructions_eq, List.filterMap_append]
    rfl
  · rw [hp, indexes_append]
    exact List.append_nil _

theorem indexes_returning (f : Fragment) : f.returning.indexes = f.indexes := by
  unfold returning
  split
  · rfl
  · rw [indexes_append]
    exact List.append_nil _

theorem indexes_skips (count : Nat) : (⟨skips count, false⟩ : Fragment).indexes = [] := by
  fun_induction skips count with
  | case1 => rfl
  | case2 count _ ih => exact ih

theorem indexes_skipping (f : Fragment) (count : Nat) :
    (f.skipping count).indexes = f.indexes := by
  unfold skipping
  split
  · rfl
  · rw [indexes_append, indexes_skips, List.append_nil]

/-- The piece of code serves the constants that are added to the pool, which then is `pool'`: it
addresses each of them, and a function among them once. It addresses no earlier function, and
nothing outside of the pool. -/
structure Uses (pool pool' : List Constant) (f : Fragment) : Prop where
  inside : ∀ k ∈ f.indexes, k < pool'.length
  all : ∀ k, pool.length ≤ k → k < pool'.length → k ∈ f.indexes
  once : ∀ k j, pool'[k]? = some (.function j) →
    f.indexes.count k = if pool.length ≤ k then 1 else 0

namespace Uses

variable {pool pool₁ pool' : List Constant}

theorem of_quiet (h : f.indexes = []) (hpool : pool' = pool) : f.Uses pool pool' := by
  refine ⟨fun k hk => ?_, fun k hle hlt => ?_, fun k j hj => ?_⟩
  · rw [h] at hk
    cases hk
  · rw [hpool] at hlt
    omega
  · have hlt := (List.getElem?_eq_some_iff.1 hj).1
    rw [hpool] at hlt
    rw [h, List.count_nil, if_neg (Nat.not_le_of_lt hlt)]

theorem of_perm (h : f.Uses pool pool') (hperm : f.indexes.Perm g.indexes) : g.Uses pool pool' :=
  ⟨fun k hk => h.inside k (hperm.mem_iff.2 hk), fun k hle hlt => hperm.mem_iff.1 (h.all k hle hlt),
    fun k j hj => hperm.count_eq k ▸ h.once k j hj⟩

theorem of_indexes_eq (h : f.Uses pool pool') (heq : g.indexes = f.indexes) : g.Uses pool pool' :=
  h.of_perm (heq ▸ .refl _)

/-- Each of two pieces serves the constants that are added with it. -/
theorem append (hf : f.Uses pool pool₁) (hg : g.Uses pool₁ pool') (hpool : pool <+: pool₁)
    (hpool' : pool₁ <+: pool') : (f ++ g).Uses pool pool' := by
  have hle := hpool.length_le
  have hle' := hpool'.length_le
  refine ⟨fun k hk => ?_, fun k hk hlt => ?_, fun k j hj => ?_⟩
  · rw [indexes_append] at hk
    rcases List.mem_append.1 hk with hk | hk
    · exact Nat.lt_of_lt_of_le (hf.inside k hk) hle'
    · exact hg.inside k hk
  · rw [indexes_append]
    by_cases hfirst : k < pool₁.length
    · exact List.mem_append_left _ (hf.all k hk hfirst)
    · exact List.mem_append_right _ (hg.all k (Nat.le_of_not_lt hfirst) hlt)
  · rw [indexes_append, List.count_append, hg.once k j hj]
    by_cases hfirst : k < pool₁.length
    · obtain ⟨rest, hrest⟩ := hpool'
      rw [← hrest, List.getElem?_append_left hfirst] at hj
      rw [hf.once k j hj, if_neg (Nat.not_le_of_lt hfirst), Nat.add_zero]
    · have hnone : k ∉ f.indexes := fun hk => hfirst (hf.inside k hk)
      rw [List.count_eq_zero_of_not_mem hnone, if_pos (Nat.le_of_not_lt hfirst),
        if_pos (Nat.le_trans hle (Nat.le_of_not_lt hfirst))]

theorem marked (h : f.Uses pool pool') (pos : Position) : (f.marked pos).Uses pool pool' :=
  h.of_indexes_eq rfl

theorem landed (h : f.Uses pool pool') : f.landed.Uses pool pool' := h.of_indexes_eq rfl

theorem append_quiet (hf : f.Uses pool pool') (hg : g.indexes = []) : (f ++ g).Uses pool pool' :=
  hf.of_indexes_eq (by rw [indexes_append, hg, List.append_nil])

end Uses
end Fragment

namespace Lower

variable {ctx : Context} {pos : Position} {d d' : Draft} {f : Fragment}

/-- An instruction with the index of a value serves it if it is new. -/
theorem Yields.intern_uses {v : Value} {k : Nat} (h : Yields (intern ctx pos v) d k d')
    (hf : f.indexes = [k]) : f.Uses d.pool d'.pool := by
  obtain ⟨hvalue, -, -⟩ := h.interned
  have hlt := (List.getElem?_eq_some_iff.1 hvalue).1
  -- The only constant that may be new is at `k`, and it is no function.
  have hnew : ∀ n, d.pool.length ≤ n → n < d'.pool.length → n = k := by
    intro n hle hn
    rcases yields_intern.1 h with ⟨-, rfl⟩ | ⟨-, hadd⟩
    · omega
    · obtain ⟨-, rfl, rfl⟩ := yields_addConstant.1 hadd
      simp only [List.length_append, List.length_singleton] at hn
      omega
  refine ⟨fun n hn => ?_, fun n hle hn => ?_, fun n j hj => ?_⟩
  · rw [hf, List.mem_singleton] at hn
    exact hn ▸ hlt
  · rw [hf, hnew n hle hn]
    exact List.mem_singleton_self k
  · have hne : n ≠ k := by
      rintro rfl
      cases hvalue.symm.trans hj
    have hold : ¬ d.pool.length ≤ n := fun hle =>
      hne (hnew n hle (List.getElem?_eq_some_iff.1 hj).1)
    rw [hf, if_neg hold]
    exact List.count_eq_zero_of_not_mem fun hn => hne (List.mem_singleton.1 hn)

/-- A value may be interned before the code that runs ahead of the instruction with its index. -/
theorem Yields.intern_uses_last {v : Value} {k : Nat} {d₁ : Draft} {g : Fragment}
    (h : Yields (intern ctx pos v) d k d₁) (hf : f.indexes = [k]) (hg : g.Uses d₁.pool d'.pool)
    (hpool : d₁.pool <+: d'.pool) : (g ++ f).Uses d.pool d'.pool := by
  refine ((h.intern_uses hf).append hg (Draft.Extends.kept.intern h).pool hpool).of_perm ?_
  rw [Fragment.indexes_append, Fragment.indexes_append]
  exact List.perm_append_comm

theorem Yields.load_uses {v : Value} (h : Yields (load ctx pos v) d f d') :
    f.Uses d.pool d'.pool := by
  rcases yields_load.1 h with ⟨o, ho, rfl, rfl⟩ | ⟨-, k, hk, rfl⟩
  · refine .of_quiet ?_ rfl
    cases v with
    | unit | bool b =>
      unfold immediate at ho
      split at ho <;> cases ho <;> rfl
    | _ => cases ho
  · exact hk.intern_uses (Fragment.indexes_indexed rfl k [])

theorem Yields.loadName_uses {name : Bytes} (h : Yields (loadName ctx pos name) d f d') :
    f.Uses d.pool d'.pool := by
  rcases yields_loadName h with ⟨s, -, rfl, rfl⟩ | ⟨v, -, hv⟩ | ⟨-, -, -, k, hk, rfl⟩
  · exact .of_quiet (Fragment.indexes_slot rfl s) rfl
  · exact hv.load_uses
  · exact hk.intern_uses (Fragment.indexes_indexed rfl k [])

theorem indexes_branch (taken : Bool) (operands : List Nat) :
    (op (branchOn taken) operands).indexes = [] := by
  cases taken <;> rfl

theorem indexes_callBuiltin (b : Builtin) (argc : Nat) : (callBuiltin b argc).indexes = [] := by
  unfold callBuiltin
  split <;> rfl

theorem indexes_captureLoads (captured : List (Bytes × Nat)) :
    (captureLoads captured).indexes = [] := by
  induction captured with
  | nil => rfl
  | cons c captured ih =>
    have hsplit : captureLoads (c :: captured) =
        instr (.indexed .loadPush c.2) ++ captureLoads captured := rfl
    rw [hsplit, Fragment.indexes_append, Fragment.indexes_slot rfl, ih]
    rfl

theorem indexes_loadFunction (captured : List (Bytes × Nat)) (k : Nat) :
    (loadFunction captured k).indexes = [k] := by
  unfold loadFunction
  split
  · exact Fragment.indexes_indexed rfl k []
  · rw [Fragment.indexes_append, indexes_captureLoads]
    rfl

theorem uses_loadFunction (captured : List (Bytes × Nat)) {place : Nat}
    (hpool : d'.pool = d.pool ++ [.function place]) :
    (loadFunction captured d.pool.length).Uses d.pool d'.pool := by
  have hlength : d'.pool.length = d.pool.length + 1 := by rw [hpool, List.length_append]; rfl
  have hindexes := indexes_loadFunction captured d.pool.length
  refine ⟨fun n hn => ?_, fun n hle hn => ?_, fun n j hj => ?_⟩
  · rw [hindexes, List.mem_singleton] at hn
    omega
  · rw [hindexes, List.mem_singleton]
    omega
  · have hn := (List.getElem?_eq_some_iff.1 hj).1
    by_cases hle : d.pool.length ≤ n
    · rw [hindexes, if_pos hle, show n = d.pool.length by omega]
      exact List.count_singleton_self
    · rw [hindexes, if_neg hle]
      exact List.count_eq_zero_of_not_mem fun hmem =>
        hle (Nat.le_of_eq (List.mem_singleton.1 hmem).symm)

end Lower

theorem Emits.uses {ctx : Context} {use : Use} {base depth : Nat} {part : Part} {d d' : Draft}
    {f : Fragment} (h : Emits ctx use base depth part d f d') : f.Uses d.pool d'.pool := by
  induction h with
  | literal hy | callFolded _ _ _ _ hy => exact hy.load_uses
  | ident hy => exact hy.loadName_uses
  | marked _ _ ih => exact ih.marked _
  | negation _ _ ih | callOperand _ _ _ _ _ _ ih | condTrue _ _ ih
  | condFalse _ _ ih | block _ ih | and _ _ ih | or _ _ ih | lambda _ ih | otherwiseSome _ ih
  | sequenceOne _ ih | spreadOne _ ih | operandsOne _ ih | operandAt _ _ ih => exact ih
  | callSelf _ _ _ _ ih | applySelf _ _ _ _ _ ih =>
    refine ih.append_quiet ?_
    split <;> rfl
  | callNamed _ _ _ hk ha ih =>
    exact hk.intern_uses_last (Fragment.indexes_indexed rfl _ _) ih ha.grows.pool
  | callUnary _ _ _ _ _ hf ih =>
    exact (ih.of_indexes_eq (Fragment.indexes_pushed (hf.ends rfl))).append_quiet
      (indexes_callBuiltin _ _)
  | callStep _ _ _ _ hs _ ih =>
    refine ih.append_quiet ?_
    rcases shortcut?_step hs with rfl | rfl <;> rfl
  | callPlain _ _ _ _ _ _ ih => exact ih.append_quiet (indexes_callBuiltin _ _)
  | callComputed _ _ hf ha ih₁ ih₂ | applyComputed _ _ _ _ hf ha ih₁ ih₂ =>
    have hfn := ih₁.of_indexes_eq (Fragment.indexes_pushed (hf.ends rfl))
    exact (hfn.append ih₂ hf.grows.pool ha.grows.pool).append_quiet rfl
  | condTail _ ht hy _ _ hn ih₁ ih₂ ih₃ =>
    have hyes := ih₂.of_indexes_eq (Fragment.indexes_returning _)
    exact ((ih₁.append_quiet (indexes_branch _ _)).append hyes ht.grows.pool hy.grows.pool).append
      ih₃ (ht.grows.pool.trans hy.grows.pool) hn.grows.pool
  | condValue _ _ ht hy _ _ hn _ ih₁ ih₂ ih₃ =>
    refine (Fragment.Uses.append_quiet ?_ rfl).append ih₃ (ht.grows.pool.trans hy.grows.pool)
      hn.grows.pool |>.landed
    exact (ih₁.append_quiet (indexes_branch _ _)).append ih₂ ht.grows.pool hy.grows.pool
  | letTail hv hb ih₁ ih₂ => exact ih₁.append ih₂ hv.grows.pool hb.grows.pool
  | letValue _ hv hb ih₁ ih₂ =>
    exact (ih₁.append ih₂ hv.grows.pool hb.grows.pool).of_indexes_eq
      (Fragment.indexes_skipping _ _)
  | andEmpty | orEmpty | otherwiseNone | sequenceNil | operandAtNone | argumentsNil | valuesNil =>
    exact .of_quiet rfl rfl
  | function => exact uses_loadFunction _ rfl
  | sequenceCons _ hf hg ih₁ ih₂ => exact ih₁.append ih₂ hf.grows.pool hg.grows.pool
  | argumentsCons hf hg ih₁ ih₂ | spreadCons _ hf hg ih₁ ih₂ | valuesCons _ hf hg ih₁ ih₂ =>
    have hfirst := ih₁.of_indexes_eq (Fragment.indexes_pushed (hf.ends rfl))
    exact hfirst.append ih₂ hf.grows.pool hg.grows.pool
  | operandsCons _ hf hg _ _ ih₁ ih₂ =>
    exact ((ih₁.append_quiet (indexes_branch _ _)).append ih₂ hf.grows.pool hg.grows.pool).landed

theorem EmitsForm.uses {ctx : Context} {e : Expr} {f : Fragment} {d : Draft}
    (h : EmitsForm ctx e f d) : f.Uses [] d.pool := by
  cases h with
  | expression _ h => exact h.uses
  | define _ hk h | const _ hk h => exact hk.intern_uses_last rfl h.uses h.grows.pool
  | defineFunction hk h => exact hk.intern_uses_last rfl (h.uses.marked _) h.grows.pool

/-! ### Distinct constants -/

/-- The functions of a pool are told apart by their places among those that were completed. -/
structure Draft.Distinct (d : Draft) : Prop where
  refers : d.Refers
  nodup : d.pool.Nodup

theorem Draft.distinct_of_empty {d : Draft} (h : d.pool = []) : d.Distinct := by
  refine ⟨fun k hk => ?_, h ▸ List.nodup_nil⟩
  rw [h] at hk
  cases hk

theorem Draft.kept_distinct : Draft.Kept fun d d' => d.Distinct → d'.Distinct where
  refl _ h := h
  trans h h' hd := h' (h hd)
  slots _ _ h := ⟨h.refers, h.nodup⟩
  intern h hd := by
    refine ⟨Draft.kept_refers.intern h hd.refers, ?_⟩
    rcases yields_intern.1 h with ⟨-, rfl⟩ | ⟨hnone, hadd⟩
    · exact hd.nodup
    · obtain ⟨-, -, rfl⟩ := yields_addConstant.1 hadd
      have hnew := List.idxOf?_eq_none_iff.1 hnone
      exact List.nodup_append.2 ⟨hd.nodup, List.pairwise_singleton _ _, fun a ha b hb heq =>
        hnew (List.mem_singleton.1 hb ▸ heq ▸ ha)⟩
  function hslots hb ih hpool hd := by
    refine ⟨Draft.kept_refers.function hslots hb (fun _ => (ih (distinct_of_empty rfl)).refers)
      hpool hd.refers, ?_⟩
    -- The functions of the pool were completed before the one that is added.
    have hgrown := hb.grows.functions.length_le
    refine List.nodup_append.2 ⟨hd.nodup, List.pairwise_singleton _ _, fun a ha b hb heq => ?_⟩
    have hlt := hd.refers _ (List.mem_singleton.1 hb ▸ heq ▸ ha)
    exact absurd hlt (Nat.not_lt_of_le hgrown)

/-! ### Compiled functions -/

/-- All of the code is instructions. The pool is small and holds nothing twice. Some instruction
addresses each constant, and only one a function. -/
structure Function.Thrifty (g : Function) : Prop where
  complete : g.bytes = Instruction.encode g.instructions
  small : g.constants.length ≤ 256
  distinct : g.constants.Nodup
  used : ∀ k < g.constants.length, ∃ i ∈ g.instructions, i.poolIndex? = some k
  once : ∀ k j, g.constants[k]? = some (.function j) →
    g.instructions.countP (fun i => i.poolIndex? == some k) = 1

theorem Fragment.Uses.thrifty {f : Fragment} {g : Function} {earlier : List Function}
    (h : f.Uses [] g.constants) (hbuilt : g.Built earlier f.returning.instructions)
    (hsmall : g.constants.length ≤ Limit.constants) (hdistinct : g.constants.Nodup) :
    g.Thrifty := by
  have hinstrs := hbuilt.instructions_eq
  have hindexes : g.instructions.filterMap Instruction.poolIndex? = f.indexes := by
    rw [hinstrs]
    exact indexes_returning f
  refine ⟨by rw [hinstrs, hbuilt.code], hsmall, hdistinct, fun k hk => ?_, fun k j hj => ?_⟩
  · have hmem := h.all k (Nat.zero_le k) hk
    rw [← hindexes] at hmem
    exact List.mem_filterMap.1 hmem
  · have hcount := h.once k j hj
    rw [← hindexes, List.count_filterMap] at hcount
    exact hcount.trans (if_pos (Nat.zero_le k))

theorem Compilation.Compiles.thrifty {options : CompileOptions} {k : Nat} {ctx : Context} {e : Expr}
    {img : Image} (h : Compiles options k ctx e img) : ∀ g ∈ img.functions, g.Thrifty := by
  obtain ⟨f, d, hf, rfl⟩ := h.emits
  have hframe := h.frame
  refine List.forall_mem_append.2 ⟨?_, List.forall_mem_singleton.2 ?_⟩
  · refine hf.forall_finished fun hslots hb => ?_
    exact (hb.uses.marked _).thrifty (hb.built hslots) (hb.grows.limit (Nat.zero_le _))
      (Draft.kept_distinct.emits hb (Draft.distinct_of_empty rfl)).nodup
  · exact hf.uses.thrifty (hf.built hframe) ((hf.kept Draft.Extends.kept).limit (Nat.zero_le _))
      (hf.kept Draft.kept_distinct (Draft.distinct_of_empty rfl)).nodup

/-- Compiled functions have nothing in their pools that their code does not need, whatever the forms
and the environment they are compiled in. -/
theorem Compilation.compile_thrifty {options : CompileOptions} {env : Environment}
    {forms : List Expr} {c : Compilation} (h : compile options env forms = .ok c) :
    ∀ img ∈ c.images, ∀ g ∈ img.functions, g.Thrifty := by
  intro img himg
  obtain ⟨k, hk⟩ := List.mem_iff_getElem?.1 himg
  obtain ⟨e, ctx, -, hcompiles⟩ := (compiles_compile h).2 k img hk
  exact hcompiles.thrifty

/-- A constant of the environment and a number that are equal, a name that is read twice, a closure
and two functions that are written alike. -/
def Program.repetitive : Bytes :=
  Text.lit "(define f (lambda (x) (list limit 300 f f (lambda () x) (lambda () 1) (lambda () 1))))"

theorem Compilation.repetitive_thrifty :
    ∃ c, compile {} ⟨[(Text.lit "limit", .constant (.int 300))]⟩
        (Program.read {} Program.repetitive).forms = .ok c ∧
      c.images.map (fun img => img.functions.map fun g =>
        (g.constants, g.instructions.filterMap Instruction.poolIndex?)) =
        [[([], []), ([.value (.int 1)], [0]), ([.value (.int 1)], [0]),
          ([.value (.int 300), .value (.name (Text.lit "f")), .function 0, .function 1,
            .function 2], [0, 0, 1, 1, 2, 3, 4]),
          ([.value (.name (Text.lit "f")), .function 3], [1, 0])]] ∧
      ∀ img ∈ c.images, ∀ g ∈ img.functions, g.Thrifty := by
  have hpools : (compile {} ⟨[(Text.lit "limit", .constant (.int 300))]⟩
      (Program.read {} Program.repetitive).forms).toOption.map
      (fun c => c.images.map fun img => img.functions.map fun g =>
        (g.constants, g.instructions.filterMap Instruction.poolIndex?)) =
      some [[([], []), ([.value (.int 1)], [0]), ([.value (.int 1)], [0]),
        ([.value (.int 300), .value (.name (Text.lit "f")), .function 0, .function 1,
          .function 2], [0, 0, 1, 1, 2, 3, 4]),
        ([.value (.name (Text.lit "f")), .function 3], [1, 0])]] := by
    decide +kernel
  cases h : compile {} ⟨[(Text.lit "limit", .constant (.int 300))]⟩
      (Program.read {} Program.repetitive).forms with
  | error r =>
    rw [h] at hpools
    cases hpools
  | ok c =>
    rw [h] at hpools
    exact ⟨c, rfl, Option.some.inj hpools, compile_thrifty h⟩

end StackLisp
