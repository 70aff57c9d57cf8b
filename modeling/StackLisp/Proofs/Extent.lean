import StackLisp.Proofs.Assembly
import StackLisp.Proofs.Places

/-! How much is compiled. The marks in code are places of the source in their order, and the size of
the code and the number of functions are bounded by the number of places. -/
namespace StackLisp

open scoped List
open Lower
open Fragment (op instr jumpSize)

/-- The place that an item marks. -/
def Item.place? : Item → Option Position
  | .mark p => some p
  | .instr _ => none

theorem Instruction.size_indexed_le (f : Family) (i : Nat) (extra : List Nat) :
    (indexed f i extra).size ≤ 2 + extra.length := by
  unfold indexed
  split <;> simp only [size, List.length_cons] <;> omega

namespace Fragment

/-- The places that a piece of code marks, in order. -/
def marks (f : Fragment) : List Position := f.items.filterMap Item.place?

@[simp] theorem marks_append (f g : Fragment) : (f ++ g).marks = f.marks ++ g.marks :=
  List.filterMap_append

@[simp] theorem marks_empty : ({} : Fragment).marks = [] := rfl

@[simp] theorem marks_instr (i : Instruction) : (instr i).marks = [] := rfl

@[simp] theorem marks_op (o : Opcode) (operands : List Nat) : (op o operands).marks = [] := rfl

@[simp] theorem marks_marked (pos : Position) (f : Fragment) :
    (f.marked pos).marks = pos :: f.marks := rfl

@[simp] theorem marks_landed (f : Fragment) : f.landed.marks = f.marks := rfl

@[simp] theorem size_marked (pos : Position) (f : Fragment) : (f.marked pos).size = f.size := rfl

@[simp] theorem size_landed (f : Fragment) : f.landed.size = f.size := rfl

@[simp] theorem size_empty : ({} : Fragment).size = 0 := rfl

theorem size_cons (item : Item) (items : List Item) (b : Bool) :
    (⟨item :: items, b⟩ : Fragment).size =
      (⟨[item], b⟩ : Fragment).size + (⟨items, b⟩ : Fragment).size :=
  size_append ⟨[item], b⟩ ⟨items, b⟩

/-- The load at the end keeps its operands. -/
theorem pushLast_spec {items items' : List Item} (h : pushLast items = some items') (b b' : Bool) :
    (⟨items', b'⟩ : Fragment).marks = (⟨items, b⟩ : Fragment).marks ∧
      (⟨items', b'⟩ : Fragment).size = (⟨items, b⟩ : Fragment).size := by
  fun_induction pushLast items generalizing items' with
  | case1 => cases h
  | case2 i =>
    obtain ⟨o, -, rfl⟩ := Option.map_eq_some_iff.1 h
    exact ⟨rfl, rfl⟩
  | case3 item rest _ ih =>
    obtain ⟨rest', hrest, rfl⟩ := Option.map_eq_some_iff.1 h
    obtain ⟨hmarks, hsize⟩ := ih hrest
    refine ⟨?_, ?_⟩
    · unfold marks at hmarks ⊢
      dsimp only at hmarks ⊢
      rw [List.filterMap_cons, List.filterMap_cons, hmarks]
    · rw [size_cons item rest', size_cons item rest, hsize]
      rfl

@[simp] theorem marks_pushed (f : Fragment) : f.pushed.marks = f.marks := by
  unfold pushed
  dsimp only
  split
  · simp
  · split
    · next h => exact (pushLast_spec h f.landing false).1
    · simp

theorem size_pushed_le (f : Fragment) : f.pushed.size ≤ f.size + 1 := by
  unfold pushed
  dsimp only
  split
  · simp
  · split
    · next h =>
      have hsize := (pushLast_spec h f.landing false).2
      exact Nat.le_succ_of_le (Nat.le_of_eq hsize)
    · simp

@[simp] theorem marks_returning (f : Fragment) : f.returning.marks = f.marks := by
  unfold returning
  split <;> simp

theorem size_returning_le (f : Fragment) : f.returning.size ≤ f.size + 1 := by
  unfold returning
  split <;> simp

theorem skips_spec (count : Nat) : (⟨skips count, false⟩ : Fragment).marks = [] ∧
    (⟨skips count, false⟩ : Fragment).size ≤ 2 * count := by
  fun_induction skips count with
  | case1 => exact ⟨rfl, Nat.le_refl _⟩
  | case2 count hne ih =>
    refine ⟨ih.1, ?_⟩
    have hone : (⟨[.instr ⟨.skip, [min count 255]⟩], false⟩ : Fragment).size = 2 := rfl
    rw [size_cons, hone]
    omega

@[simp] theorem marks_skipping (f : Fragment) (count : Nat) :
    (f.skipping count).marks = f.marks := by
  unfold skipping
  split
  · rfl
  · rw [marks_append, (skips_spec count).1, List.append_nil]

theorem size_skipping_le (f : Fragment) (count : Nat) :
    (f.skipping count).size ≤ f.size + 2 * count := by
  unfold skipping
  split
  · exact Nat.le_add_right _ _
  · rw [size_append]
    exact Nat.add_le_add_left (skips_spec count).2 _

@[simp] theorem length_code (f : Fragment) : f.code.length = f.size := by
  rw [size_eq]
  exact Instruction.length_encode _

/-- A location is a mark and the offset of the code behind it. -/
theorem locationsFrom_spec (offset : Nat) (items : List Item) (b : Bool) :
    (locationsFrom offset items).length ≤ (⟨items, b⟩ : Fragment).marks.length ∧
      ∀ l ∈ locationsFrom offset items,
        (0 ≤ l.offset ∧ l.offset ≤ offset + (⟨items, b⟩ : Fragment).size) ∧
        ∃ p ∈ (⟨items, b⟩ : Fragment).marks, l.line = p.lineNumber ∧ l.column = p.columnNumber := by
  fun_induction locationsFrom offset items with
  | case1 => simp
  | case2 offset i rest ih =>
    refine ⟨ih.1, fun l hl => ?_⟩
    obtain ⟨hoffset, hmark⟩ := ih.2 l hl
    have hone : (⟨[.instr i], b⟩ : Fragment).size = i.size := size_instr i
    refine ⟨?_, hmark⟩
    rw [size_cons, hone]
    omega
  | case3 offset p q rest ih =>
    refine ⟨Nat.le_succ_of_le ih.1, fun l hl => ?_⟩
    obtain ⟨hoffset, r, hr, hplace⟩ := ih.2 l hl
    exact ⟨hoffset, r, List.mem_cons_of_mem _ hr, hplace⟩
  | case4 offset p rest _ ih =>
    refine ⟨Nat.succ_le_succ ih.1, fun l hl => ?_⟩
    rcases List.mem_cons.1 hl with rfl | hl
    · refine ⟨?_, p, List.mem_cons_self, rfl, rfl⟩
      dsimp only
      omega
    · obtain ⟨hoffset, r, hr, hplace⟩ := ih.2 l hl
      exact ⟨hoffset, r, List.mem_cons_of_mem _ hr, hplace⟩

end Fragment

namespace Lower

variable {ctx : Context} {pos : Position} {d d' : Draft} {f : Fragment}

theorem callBuiltin_spec (b : Builtin) (argc : Nat) :
    (callBuiltin b argc).marks = [] ∧ (callBuiltin b argc).size ≤ 3 := by
  unfold callBuiltin
  split <;> simp

theorem loadFunction_spec (captured : List (Bytes × Nat)) (i : Nat) :
    (loadFunction captured i).marks = [] ∧
      (loadFunction captured i).size ≤ 2 * captured.length + 3 := by
  have hloads : (captureLoads captured).marks = [] ∧
      (captureLoads captured).size ≤ 2 * captured.length := by
    unfold captureLoads
    induction captured with
    | nil => exact ⟨rfl, Nat.le_refl _⟩
    | cons c rest ih =>
      have hone : (⟨[.instr (.indexed .loadPush c.2)], false⟩ : Fragment).size ≤ 2 :=
        Nat.le_trans (Nat.le_of_eq (Fragment.size_instr _)) (Instruction.size_indexed_le _ _ [])
      refine ⟨ih.1, ?_⟩
      rw [List.map_cons, Fragment.size_cons, List.length_cons]
      omega
  unfold loadFunction
  split
  · have hone := Instruction.size_indexed_le .const i []
    rw [Fragment.marks_instr, Fragment.size_instr]
    exact ⟨rfl, Nat.le_trans hone (by simp)⟩
  · rw [Fragment.marks_append, Fragment.size_append, hloads.1, Fragment.size_op]
    exact ⟨rfl, Nat.add_le_add_right hloads.2 3⟩

theorem Yields.load_spec {v : Value} (h : Yields (load ctx pos v) d f d') :
    f.marks = [] ∧ f.size ≤ 2 := by
  rcases yields_load.1 h with ⟨o, -, rfl, -⟩ | ⟨-, i, -, rfl⟩
  · simp
  · rw [Fragment.marks_instr, Fragment.size_instr]
    exact ⟨rfl, Instruction.size_indexed_le _ _ []⟩

theorem Yields.loadName_spec {name : Bytes} (h : Yields (loadName ctx pos name) d f d') :
    f.marks = [] ∧ f.size ≤ 2 := by
  rcases yields_loadName h with ⟨s, -, rfl, -⟩ | ⟨v, -, hload⟩ | ⟨-, -, -, i, -, rfl⟩
  · rw [Fragment.marks_instr, Fragment.size_instr]
    exact ⟨rfl, Instruction.size_indexed_le _ _ []⟩
  · exact hload.load_spec
  · rw [Fragment.marks_instr, Fragment.size_instr]
    exact ⟨rfl, Instruction.size_indexed_le _ _ []⟩

end Lower

namespace Expr

/-- The number of expressions in an expression, with itself. -/
def size (e : Expr) : Nat := e.places.length

def sizeAll (es : List Expr) : Nat := (es.flatMap places).length

section
variable {pos : Position} {name : Bytes} {params : List Bytes} {fn value : Expr} {es : List Expr}

@[simp] theorem sizeAll_nil : sizeAll [] = 0 := rfl

@[simp] theorem sizeAll_cons {e : Expr} : sizeAll (e :: es) = e.size + sizeAll es :=
  List.length_append

@[simp] theorem size_literal {v : Value} : (literal pos v).size = 1 := rfl

@[simp] theorem size_ident : (ident pos name).size = 1 := rfl

@[simp] theorem size_call : (call pos fn es).size = fn.size + sizeAll es + 1 := by
  simp [size, sizeAll]

@[simp] theorem size_apply : (apply pos fn es).size = fn.size + sizeAll es + 1 := by
  simp [size, sizeAll]

@[simp] theorem size_cond {test yes : Expr} {no : Option Expr} :
    (cond pos test yes no).size = test.size + (yes.size + sizeAll no.toList) + 1 := by
  simp [size, sizeAll]

@[simp] theorem size_lambda : (lambda pos name params es).size = sizeAll es + 1 := by
  simp [size, sizeAll]

@[simp] theorem size_define : (define pos name value).size = value.size + 1 := by
  simp [size]

@[simp] theorem size_const : (const pos name value).size = value.size + 1 := by
  simp [size]

@[simp] theorem size_letIn {bindings : List (Binding Expr)} :
    (letIn pos bindings es).size = sizeAll (bindings.map Binding.value) + sizeAll es + 1 := by
  simp [size, sizeAll]

@[simp] theorem size_block : (block pos es).size = sizeAll es + 1 := by
  simp [size, sizeAll]

@[simp] theorem size_and : (and pos es).size = sizeAll es + 1 := by
  simp [size, sizeAll]

@[simp] theorem size_or : (or pos es).size = sizeAll es + 1 := by
  simp [size, sizeAll]

end
end Expr

namespace Part

/-- The places of the expressions in a part. -/
def places (part : Part) : List Position := part.exprs.flatMap Expr.places

/-- The places that the code of a part may mark. -/
def marks : Part → List Position
  | .bare e => e.children.flatMap Expr.places
  | .function _ _ _ _ body => body.flatMap Expr.places
  | part => part.places

/-- The number of expressions in a part. -/
def size (part : Part) : Nat := Expr.sizeAll part.exprs

/-- Bytes that are left of those that a part may take, for a push or a jump behind its code. -/
def spare : Part → Nat
  | .expr _ | .bare _ | .function _ _ _ _ _ => 8
  | .values bs => 2 * bs.length
  | _ => 0

/-- The code of a part without expressions. -/
def filler : Part → Nat
  | .otherwise _ | .sequence _ | .operandAt _ _ => 1
  | _ => 0

@[simp] theorem places_expr (e : Expr) : (expr e).places = e.places := List.flatMap_singleton _ _

@[simp] theorem places_bare (e : Expr) : (bare e).places = e.places := List.flatMap_singleton _ _

@[simp] theorem places_function (pos : Position) (name : Bytes) (params free : List Bytes)
    (body : List Expr) :
    (function pos name params free body).places = pos :: body.flatMap Expr.places :=
  (List.flatMap_singleton _ _).trans Expr.places_lambda

@[simp] theorem marks_expr (e : Expr) : (expr e).marks = e.places := List.flatMap_singleton _ _

@[simp] theorem marks_bare_call (pos : Position) (fn : Expr) (args : List Expr) :
    (bare (.call pos fn args)).marks = fn.places ++ args.flatMap Expr.places := rfl

@[simp] theorem marks_bare_apply (pos : Position) (fn : Expr) (args : List Expr) :
    (bare (.apply pos fn args)).marks = fn.places ++ args.flatMap Expr.places := rfl

@[simp] theorem marks_bare_cond (pos : Position) (test yes : Expr) (no : Option Expr) :
    (bare (.cond pos test yes no)).marks =
      test.places ++ (yes.places ++ no.toList.flatMap Expr.places) := rfl

@[simp] theorem marks_bare_letIn (pos : Position) (bs : List (Binding Expr)) (body : List Expr) :
    (bare (.letIn pos bs body)).marks =
      (bs.map Binding.value).flatMap Expr.places ++ body.flatMap Expr.places :=
  List.flatMap_append

end Part

theorem Expr.places_sublist {e : Expr} {es : List Expr} (h : e ∈ es) :
    e.places <+ es.flatMap places := by
  obtain ⟨before, behind, rfl⟩ := List.append_of_mem h
  rw [List.flatMap_append, List.flatMap_cons]
  exact (List.sublist_append_left _ _).trans (List.sublist_append_right _ _)

theorem Expr.size_le_sizeAll {e : Expr} {es : List Expr} (h : e ∈ es) : e.size ≤ sizeAll es :=
  (places_sublist h).length_le

theorem Expr.length_le_sizeAll (es : List Expr) : es.length ≤ sizeAll es := by
  induction es with
  | nil => exact Nat.le_refl _
  | cons e es ih =>
    have hpos : 0 < e.size := by
      rw [size, places_eq]
      exact Nat.succ_pos _
    rw [sizeAll_cons, List.length_cons]
    omega

section
variable {ctx : Context} {use : Use} {base depth : Nat} {part : Part} {d d' : Draft} {f : Fragment}

/-- Code marks the places of its expressions in their order. -/
theorem Emits.marks (h : Emits ctx use base depth part d f d') : f.marks <+ part.marks := by
  induction h with
  | marked _ _ ih =>
    rw [Fragment.marks_marked, Part.marks_expr, Expr.places_eq]
    exact ih.cons_cons _
  | negation _ _ ih =>
    rw [Part.marks_expr, Expr.places_call]
    exact (ih.trans (List.sublist_append_right _ _)).cons _
  | literal hy | callFolded _ _ _ _ hy =>
    rw [hy.load_spec.1]
    exact List.nil_sublist _
  | ident hy =>
    rw [hy.loadName_spec.1]
    exact List.nil_sublist _
  | callSelf _ _ _ _ ih | callNamed _ _ _ _ _ ih | callStep _ _ _ _ _ _ ih
  | applySelf _ _ _ _ _ ih =>
    simp only [Fragment.marks_append, Fragment.marks_op, Fragment.marks_instr, List.append_nil]
    exact ih.trans (List.sublist_append_right _ _)
  | callOperand _ _ _ _ _ _ ih => exact ih.trans (List.sublist_append_right _ _)
  | callUnary _ _ _ _ _ _ ih | callPlain _ _ _ _ _ _ ih =>
    simp only [Fragment.marks_append, Fragment.marks_pushed, (callBuiltin_spec _ _).1,
      List.append_nil]
    exact ih.trans (List.sublist_append_right _ _)
  | callComputed _ _ _ _ ih₁ ih₂ | applyComputed _ _ _ _ _ _ ih₁ ih₂ =>
    simp only [Fragment.marks_append, Fragment.marks_op, Fragment.marks_pushed, List.append_nil]
    rw [Part.marks_expr] at ih₁
    exact ih₁.append ih₂
  | condTrue _ _ ih =>
    rw [Part.marks_expr] at ih
    rw [Part.marks_bare_cond]
    exact (ih.trans (List.sublist_append_left _ _)).trans (List.sublist_append_right _ _)
  | condFalse _ _ ih =>
    rw [Part.marks_bare_cond]
    exact (ih.trans (List.sublist_append_right _ _)).trans (List.sublist_append_right _ _)
  | condTail _ _ _ _ _ _ ih₁ ih₂ ih₃ | condValue _ _ _ _ _ _ _ _ ih₁ ih₂ ih₃ =>
    rw [Part.marks_expr] at ih₁ ih₂
    simp only [Fragment.marks_append, Fragment.marks_op, Fragment.marks_returning,
      Fragment.marks_landed, List.append_nil, List.append_assoc]
    exact ih₁.append (ih₂.append ih₃)
  | letTail _ _ ih₁ ih₂ =>
    rw [Fragment.marks_append, Part.marks_bare_letIn]
    exact ih₁.append ih₂
  | letValue _ _ _ ih₁ ih₂ =>
    rw [Fragment.marks_skipping, Fragment.marks_append, Part.marks_bare_letIn]
    exact ih₁.append ih₂
  | block _ ih | and _ _ ih | or _ _ ih | lambda _ ih => exact ih
  | function =>
    rw [(loadFunction_spec _ _).1]
    exact List.nil_sublist _
  | otherwiseSome _ ih => exact ih
  | sequenceOne _ ih | spreadOne _ ih | operandsOne _ ih => exact ih
  | sequenceCons _ _ _ ih₁ ih₂ =>
    rw [Part.marks_expr] at ih₁
    rw [Fragment.marks_append]
    exact ih₁.append ih₂
  | argumentsCons _ _ ih₁ ih₂ | spreadCons _ _ _ ih₁ ih₂ | valuesCons _ _ _ ih₁ ih₂ =>
    rw [Part.marks_expr] at ih₁
    rw [Fragment.marks_append, Fragment.marks_pushed]
    exact ih₁.append ih₂
  | operandsCons _ _ _ _ _ ih₁ ih₂ =>
    rw [Part.marks_expr] at ih₁
    simp only [Fragment.marks_append, Fragment.marks_op, Fragment.marks_landed, List.append_nil]
    exact ih₁.append ih₂
  | operandAt hget _ ih =>
    rw [Part.marks_expr] at ih
    exact ih.trans (Expr.places_sublist (List.mem_of_getElem? hget))
  | andEmpty | orEmpty | otherwiseNone | sequenceNil | argumentsNil | operandAtNone | valuesNil =>
    exact List.nil_sublist _

/-- Code takes no more than 600 bytes for each expression: a function may capture 255 values. -/
theorem Emits.size_le (h : Emits ctx use base depth part d f d') :
    f.size + part.spare ≤ 600 * part.size + part.filler := by
  induction h with
  | marked _ _ ih => exact ih
  | literal hy | callFolded _ _ _ _ hy =>
    have hload := hy.load_spec.2
    simp only [Part.size, Part.exprs, Part.spare, Part.filler, Expr.sizeAll_cons, Expr.size_call,
      Expr.size_literal]
    omega
  | ident hy =>
    have hload := hy.loadName_spec.2
    simp only [Part.size, Part.exprs, Part.spare, Part.filler, Expr.sizeAll_cons, Expr.size_ident]
    omega
  | negation _ _ ih | callSelf _ _ _ _ ih | callNamed _ _ _ _ _ ih | callStep _ _ _ _ _ _ ih
  | callOperand _ _ _ _ _ _ ih | callUnary _ _ _ _ _ _ ih | callPlain _ _ _ _ _ _ ih
  | applySelf _ _ _ _ _ ih =>
    simp only [Part.size, Part.exprs, Part.spare, Part.filler, Expr.sizeAll_cons,
      Expr.sizeAll_nil, Expr.size_call, Expr.size_apply, Fragment.size_append, Fragment.size_op,
      Fragment.size_instr, List.length_cons, List.length_nil] at ih ⊢
    grind [Fragment.size_pushed_le, callBuiltin_spec, Instruction.size_indexed_le]
  | callComputed _ _ _ _ ih₁ ih₂ | applyComputed _ _ _ _ _ _ ih₁ ih₂ =>
    simp only [Part.size, Part.exprs, Part.spare, Part.filler, Expr.sizeAll_cons,
      Expr.sizeAll_nil, Expr.size_call, Expr.size_apply, Fragment.size_append, Fragment.size_op,
      List.length_cons, List.length_nil] at ih₁ ih₂ ⊢
    grind [Fragment.size_pushed_le]
  | condTrue _ _ ih | condFalse _ _ ih | block _ ih | and _ _ ih | or _ _ ih | lambda _ ih =>
    simp only [Part.size, Part.exprs, Part.spare, Part.filler, Expr.sizeAll_cons,
      Expr.sizeAll_nil, Expr.size_cond, Expr.size_block, Expr.size_and, Expr.size_or,
      Expr.size_lambda] at ih ⊢
    omega
  | condTail _ _ _ _ _ _ ih₁ ih₂ ih₃ | condValue _ _ _ _ _ _ _ _ ih₁ ih₂ ih₃ =>
    simp only [Part.size, Part.exprs, Part.spare, Part.filler, Expr.sizeAll_cons,
      Expr.sizeAll_nil, Expr.size_cond, Fragment.size_append, Fragment.size_op,
      Fragment.size_landed, List.length_cons, List.length_nil] at ih₁ ih₂ ih₃ ⊢
    grind [Fragment.size_returning_le]
  | letTail _ _ ih₁ ih₂ | letValue _ _ _ ih₁ ih₂ =>
    simp only [Part.size, Part.exprs, Part.spare, Part.filler, Expr.sizeAll_cons,
      Expr.sizeAll_nil, Expr.size_letIn] at ih₁ ih₂ ⊢
    grind [Fragment.size_skipping_le, Fragment.size_append]
  | function _ _ hcount =>
    simp only [Part.size, Part.exprs, Part.spare, Part.filler, Expr.sizeAll_cons,
      Expr.sizeAll_nil, Expr.size_lambda]
    grind [loadFunction_spec, Limit.captures]
  | otherwiseSome _ ih | sequenceOne _ ih | spreadOne _ ih | operandsOne _ ih =>
    simp only [Part.size, Part.exprs, Part.spare, Part.filler, Option.toList_some] at ih ⊢
    omega
  | sequenceCons _ _ _ ih₁ ih₂ | argumentsCons _ _ ih₁ ih₂ | spreadCons _ _ _ ih₁ ih₂
  | valuesCons _ _ _ ih₁ ih₂ | operandsCons _ _ _ _ _ ih₁ ih₂ =>
    simp only [Part.size, Part.exprs, Part.spare, Part.filler, Expr.sizeAll_cons,
      Expr.sizeAll_nil, List.map_cons, Fragment.size_append, Fragment.size_op,
      Fragment.size_landed, List.length_cons, List.length_nil] at ih₁ ih₂ ⊢
    grind [Fragment.size_pushed_le]
  | operandAt hget _ ih =>
    have hle := Expr.size_le_sizeAll (List.mem_of_getElem? hget)
    simp only [Part.size, Part.exprs, Part.spare, Part.filler, Expr.sizeAll_cons,
      Expr.sizeAll_nil] at ih ⊢
    omega
  | andEmpty | orEmpty | otherwiseNone | sequenceNil | argumentsNil | operandAtNone | valuesNil =>
    simp [Part.size, Part.exprs, Part.spare, Part.filler]

end

/-! ### Functions -/

/-- The function is made from a part of the source whose expressions stand at the places `ps`. -/
structure Function.Within (ps : List Position) (g : Function) : Prop where
  params : 0 ≤ g.params ∧ g.params ≤ Limit.slots
  captures : 0 ≤ g.captures ∧ g.captures ≤ Limit.slots
  constants : g.constants.length ≤ Limit.constants
  locals : g.locals.length ≤ Limit.slots
  code : g.bytes.length ≤ 600 * ps.length
  locations : g.locations.length ≤ ps.length
  place : ∀ l ∈ g.locations, (0 ≤ l.offset ∧ l.offset ≤ g.bytes.length) ∧
    ∃ p ∈ ps, l.line = p.lineNumber ∧ l.column = p.columnNumber

theorem Function.Within.mono {ps qs : List Position} {g : Function} (h : g.Within ps)
    (hsub : ps <+ qs) : g.Within qs where
  params := h.params
  captures := h.captures
  constants := h.constants
  locals := h.locals
  code := Nat.le_trans h.code (Nat.mul_le_mul_left 600 hsub.length_le)
  locations := Nat.le_trans h.locations hsub.length_le
  place l hl := by
    obtain ⟨hoffset, p, hp, hplace⟩ := h.place l hl
    exact ⟨hoffset, p, hsub.subset hp, hplace⟩

/-- The function whose code is a piece that marks such places. -/
theorem Fragment.within {ps : List Position} {f : Fragment} {g : Function}
    (hcode : g.code = some f.code) (hlocations : g.locations = f.locations)
    (hmarks : f.marks <+ ps) (hsize : f.size ≤ 600 * ps.length)
    (hparams : 0 ≤ g.params ∧ g.params ≤ Limit.slots)
    (hcaptures : 0 ≤ g.captures ∧ g.captures ≤ Limit.slots)
    (hconstants : g.constants.length ≤ Limit.constants)
    (hlocals : g.locals.length ≤ Limit.slots) : g.Within ps := by
  have hbytes : g.bytes.length = f.size := by
    rw [Function.bytes, hcode]
    exact length_code f
  obtain ⟨hcount, hplace⟩ := locationsFrom_spec 0 f.items f.landing
  refine ⟨hparams, hcaptures, hconstants, hlocals, hbytes ▸ hsize, ?_, fun l hl => ?_⟩
  · rw [hlocations]
    exact Nat.le_trans hcount hmarks.length_le
  · rw [hlocations] at hl
    obtain ⟨hoffset, p, hp, hline⟩ := hplace l hl
    refine ⟨?_, p, hmarks.subset hp, hline⟩
    rw [hbytes]
    simpa using hoffset

theorem Lower.length_nameSlots_le (slots : List Bytes) (slot : Nat) (names : List Bytes) :
    (nameSlots slots slot names).length ≤ max slots.length (slot + names.length) := by
  induction names generalizing slots slot with
  | nil => exact Nat.le_max_left _ _
  | cons name rest ih =>
    have hone : (nameSlot slots slot name).length ≤ max slots.length (slot + 1) := by
      unfold nameSlot
      dsimp only
      split <;> simp only [List.length_set, List.length_append, List.length_replicate] <;> omega
    have hrest := ih (nameSlot slots slot name) (slot + 1)
    rw [nameSlots, List.length_cons]
    omega

/-- What a part of the source whose expressions stand at the places `ps` adds to a draft. -/
structure Draft.Grown (ps : List Position) (d d' : Draft) : Prop where
  count : d'.functions.length ≤ d.functions.length + ps.length
  slots : d.slots.length ≤ Limit.slots → d'.slots.length ≤ Limit.slots
  functions : ∀ g ∈ d'.functions, g ∈ d.functions ∨ g.Within ps

namespace Draft.Grown

variable {ps qs : List Position} {d d₁ d₂ d' : Draft}

theorem refl (ps : List Position) (d : Draft) : Grown ps d d :=
  ⟨Nat.le_add_right _ _, id, fun _ hg => .inl hg⟩

theorem mono (h : Grown ps d d') (hsub : ps <+ qs) : Grown qs d d' where
  count := Nat.le_trans h.count (Nat.add_le_add_left hsub.length_le _)
  slots := h.slots
  functions g hg := (h.functions g hg).imp_right fun hg => hg.mono hsub

theorem trans (h : Grown ps d d₁) (h' : Grown qs d₁ d₂) : Grown (ps ++ qs) d d₂ where
  count := by
    have hle := h.count
    have hle' := h'.count
    rw [List.length_append]
    omega
  slots hd := h'.slots (h.slots hd)
  functions g hg := by
    rcases h'.functions g hg with hg | hg
    · exact (h.functions g hg).imp_right fun hg => hg.mono (List.sublist_append_left _ _)
    · exact .inr (hg.mono (List.sublist_append_right _ _))

theorem intern {ctx : Context} {pos : Position} {v : Value} {i : Nat}
    (h : Yields (Lower.intern ctx pos v) d i d') : Grown [] d d' := by
  rcases yields_intern.1 h with ⟨-, rfl⟩ | ⟨-, hadd⟩
  · exact refl [] d'
  · obtain ⟨-, -, rfl⟩ := yields_addConstant.1 hadd
    exact ⟨Nat.le_refl _, id, fun _ hg => .inl hg⟩

theorem load {ctx : Context} {pos : Position} {v : Value} {f : Fragment}
    (h : Yields (Lower.load ctx pos v) d f d') : Grown [] d d' := by
  rcases yields_load.1 h with ⟨o, -, -, rfl⟩ | ⟨-, i, hi, -⟩
  · exact refl [] d'
  · exact intern hi

theorem loadName {ctx : Context} {pos : Position} {name : Bytes} {f : Fragment}
    (h : Yields (Lower.loadName ctx pos name) d f d') : Grown [] d d' := by
  rcases yields_loadName h with ⟨s, -, -, rfl⟩ | ⟨v, -, hv⟩ | ⟨-, -, -, i, hi, -⟩
  · exact refl [] d'
  · exact load hv
  · exact intern hi

/-- The names of a `let` are given to slots for which there is room. -/
theorem named {ctx : Context} {use : Use} {base depth : Nat} {bs : List (Binding Expr)}
    {f : Fragment} (h : Emits ctx use base depth (.values bs) d₁ f d) :
    Grown [] d { d with slots := nameSlots d.slots depth (bs.map Binding.name) } := by
  refine ⟨Nat.le_refl _, fun hd => ?_, fun _ hg => .inl hg⟩
  by_cases hbs : bs = []
  · subst hbs
    exact hd
  · have hroom := h.values_room hbs
    have hlen := length_nameSlots_le d.slots depth (bs.map Binding.name)
    rw [List.length_map] at hlen
    exact Nat.le_trans hlen (Nat.max_le.2 ⟨hd, hroom⟩)

end Draft.Grown

/-- A completed function is made from the places of its expressions. -/
theorem Emits.finished_within {ctx : Context} {pos : Position} {name : Bytes}
    {params : List Bytes} {body : List Expr} {captured : List (Bytes × Nat)}
    {functions : List Function} {b : Fragment} {inner : Draft}
    (hslots : params.length + captured.length ≤ Limit.slots)
    (hb : Emits (ctx.enter name params (captured.map Prod.fst)) .tail 0
      (params.length + captured.length) (.sequence body)
      { slots := params ++ captured.map Prod.fst, functions } b inner)
    (hlocals : inner.slots.length ≤ Limit.slots) :
    (finished ctx pos name params captured.length b inner).Within
      (pos :: body.flatMap Expr.places) := by
  have hmarks : (b.marked pos).returning.marks <+ pos :: body.flatMap Expr.places := by
    rw [Fragment.marks_returning, Fragment.marks_marked]
    exact hb.marks.cons_cons _
  have hsize : (b.marked pos).returning.size ≤
      600 * (pos :: body.flatMap Expr.places).length := by
    have hbody := hb.size_le
    have hreturn := (b.marked pos).size_returning_le
    simp only [Part.size, Part.exprs, Part.spare, Part.filler, Expr.sizeAll] at hbody
    rw [Fragment.size_marked] at hreturn
    rw [List.length_cons]
    omega
  have hframe : (0 : Int) ≤ params.length ∧ (params.length : Int) ≤ Limit.slots := by omega
  have hcaptures : (0 : Int) ≤ captured.length ∧ (captured.length : Int) ≤ Limit.slots := by omega
  exact Fragment.within rfl rfl hmarks hsize hframe hcaptures (hb.grows.limit (Nat.zero_le _))
    hlocals

section
variable {ctx : Context} {use : Use} {base depth : Nat} {part : Part} {d d' : Draft} {f : Fragment}

/-- A part of the source adds no more functions than it has expressions. -/
theorem Emits.grown (h : Emits ctx use base depth part d f d') :
    Draft.Grown part.places d d' := by
  induction h with
  | marked _ _ ih => exact ih
  | literal hy | callFolded _ _ _ _ hy =>
    exact (Draft.Grown.load hy).mono (List.nil_sublist _)
  | ident hy => exact (Draft.Grown.loadName hy).mono (List.nil_sublist _)
  | negation _ _ ih =>
    rw [Part.places_expr, Expr.places_call]
    exact ih.mono ((List.sublist_append_right _ _).cons _)
  | callSelf _ _ _ _ ih | callOperand _ _ _ _ _ _ ih | callUnary _ _ _ _ _ _ ih
  | callStep _ _ _ _ _ _ ih | callPlain _ _ _ _ _ _ ih =>
    rw [Part.places_bare, Expr.places_call]
    exact ih.mono ((List.sublist_append_right _ _).cons _)
  | applySelf _ _ _ _ _ ih =>
    rw [Part.places_bare, Expr.places_apply]
    exact ih.mono ((List.sublist_append_right _ _).cons _)
  | callNamed _ _ _ hi _ ih =>
    rw [Part.places_bare, Expr.places_call]
    exact ((Draft.Grown.intern hi).trans ih).mono ((List.sublist_append_right _ _).cons _)
  | callComputed _ _ _ _ ih₁ ih₂ =>
    rw [Part.places_expr] at ih₁
    rw [Part.places_bare, Expr.places_call]
    exact (ih₁.trans ih₂).mono (List.sublist_cons_self _ _)
  | applyComputed _ _ _ _ _ _ ih₁ ih₂ =>
    rw [Part.places_expr] at ih₁
    rw [Part.places_bare, Expr.places_apply]
    exact (ih₁.trans ih₂).mono (List.sublist_cons_self _ _)
  | condTrue _ _ ih =>
    rw [Part.places_expr] at ih
    rw [Part.places_bare, Expr.places_cond]
    exact ih.mono (((List.sublist_append_left _ _).trans (List.sublist_append_right _ _)).cons _)
  | condFalse _ _ ih =>
    rw [Part.places_bare, Expr.places_cond]
    exact ih.mono (((List.sublist_append_right _ _).trans (List.sublist_append_right _ _)).cons _)
  | condTail _ _ _ _ _ _ ih₁ ih₂ ih₃ | condValue _ _ _ _ _ _ _ _ ih₁ ih₂ ih₃ =>
    rw [Part.places_expr] at ih₁ ih₂
    rw [Part.places_bare, Expr.places_cond]
    exact (ih₁.trans (ih₂.trans ih₃)).mono (List.sublist_cons_self _ _)
  | letTail hvalues _ ih₁ ih₂ | letValue _ hvalues _ ih₁ ih₂ =>
    rw [Part.places_bare, Expr.places_letIn]
    exact (ih₁.trans ((Draft.Grown.named hvalues).trans ih₂)).mono (List.sublist_cons_self _ _)
  | block _ ih =>
    rw [Part.places_bare, Expr.places_block]
    exact ih.mono (List.sublist_cons_self _ _)
  | and _ _ ih =>
    rw [Part.places_bare, Expr.places_and]
    exact ih.mono (List.sublist_cons_self _ _)
  | or _ _ ih =>
    rw [Part.places_bare, Expr.places_or]
    exact ih.mono (List.sublist_cons_self _ _)
  | lambda _ ih =>
    rw [Part.places_function] at ih
    rw [Part.places_bare, Expr.places_lambda]
    exact ih
  | @function _ _ _ pos _ params _ body captured d _ _ _ _ _ hslots _ hb _ ih =>
    have hinner : (params ++ captured.map Prod.fst).length ≤ Limit.slots := by
      rw [List.length_append, List.length_map]
      exact hslots
    have hcount := ih.count
    rw [Part.places_function]
    refine ⟨?_, id, fun g hg => ?_⟩
    · have hplaces : (Part.sequence body).places = body.flatMap Expr.places := rfl
      rw [hplaces] at hcount
      rw [List.length_append, List.length_singleton, List.length_cons]
      dsimp only at hcount
      omega
    · rcases List.mem_append.1 hg with hg | hg
      · exact (ih.functions g hg).imp_right fun hg => hg.mono (List.sublist_cons_self _ _)
      · obtain rfl := List.mem_singleton.1 hg
        exact .inr (hb.finished_within hslots (ih.slots hinner))
  | otherwiseSome _ ih | sequenceOne _ ih | spreadOne _ ih | operandsOne _ ih => exact ih
  | sequenceCons _ _ _ ih₁ ih₂ | argumentsCons _ _ ih₁ ih₂ | spreadCons _ _ _ ih₁ ih₂
  | operandsCons _ _ _ _ _ ih₁ ih₂ | valuesCons _ _ _ ih₁ ih₂ =>
    rw [Part.places_expr] at ih₁
    exact ih₁.trans ih₂
  | operandAt hget _ ih =>
    rw [Part.places_expr] at ih
    exact ih.mono (Expr.places_sublist (List.mem_of_getElem? hget))
  | andEmpty | orEmpty | otherwiseNone | sequenceNil | argumentsNil | operandAtNone | valuesNil =>
    exact .refl _ _

end

/-! ### Forms -/

namespace EmitsForm

variable {ctx : Context} {e : Expr} {f : Fragment} {d : Draft}

theorem grown (h : EmitsForm ctx e f d) : Draft.Grown e.places {} d := by
  cases h with
  | expression _ h =>
    have hgrown := h.grown
    rw [Part.places_expr] at hgrown
    exact hgrown
  | define _ hi h =>
    have hgrown := h.grown
    rw [Part.places_expr] at hgrown
    rw [Expr.places_define]
    exact ((Draft.Grown.intern hi).trans hgrown).mono (List.sublist_cons_self _ _)
  | defineFunction hi h =>
    have hgrown := h.grown
    rw [Part.places_function] at hgrown
    rw [Expr.places_define, Expr.places_lambda]
    exact ((Draft.Grown.intern hi).trans hgrown).mono (List.sublist_cons_self _ _)
  | const _ hi h =>
    cases h with
    | literal hy =>
      exact ((Draft.Grown.intern hi).trans (Draft.Grown.load hy)).mono (List.nil_sublist _)

/-- The code of a form marks places of the form, and has no more than 600 bytes for each. -/
theorem code_within (h : EmitsForm ctx e f d) :
    f.returning.marks <+ e.places ∧ f.returning.size ≤ 600 * e.size := by
  suffices hcode : f.marks <+ e.places ∧ f.size + 1 ≤ 600 * e.size by
    rw [Fragment.marks_returning]
    exact ⟨hcode.1, Nat.le_trans f.size_returning_le hcode.2⟩
  cases h with
  | expression _ h =>
    have hmarks := h.marks
    have hsize := h.size_le
    simp only [Part.marks_expr] at hmarks
    simp only [Part.size, Part.exprs, Part.spare, Part.filler, Expr.sizeAll_cons,
      Expr.sizeAll_nil] at hsize
    exact ⟨hmarks, by omega⟩
  | define _ _ h =>
    have hmarks := h.marks
    have hsize := h.size_le
    simp only [Part.marks_expr] at hmarks
    simp only [Part.size, Part.exprs, Part.spare, Part.filler, Expr.sizeAll_cons,
      Expr.sizeAll_nil] at hsize
    simp only [Fragment.marks_append, Fragment.marks_op, List.append_nil, Fragment.size_append,
      Fragment.size_op, List.length_cons, List.length_nil, Expr.places_define, Expr.size_define]
    exact ⟨hmarks.cons _, by omega⟩
  | defineFunction _ h =>
    have hmarks := h.marks
    have hsize := h.size_le
    simp only [Part.size, Part.exprs, Part.spare, Part.filler, Expr.sizeAll_cons,
      Expr.sizeAll_nil, Expr.size_lambda] at hsize
    simp only [Fragment.marks_append, Fragment.marks_marked, Fragment.marks_op, List.append_nil,
      Fragment.size_append, Fragment.size_marked, Fragment.size_op, List.length_cons,
      List.length_nil, Expr.places_define, Expr.places_lambda, Expr.size_define, Expr.size_lambda]
    exact ⟨(hmarks.cons_cons _).cons _, by omega⟩
  | const _ _ h =>
    have hmarks := List.eq_nil_of_sublist_nil h.marks
    have hsize := h.size_le
    simp only [Part.size, Part.exprs, Part.spare, Part.filler, Expr.sizeAll_cons,
      Expr.sizeAll_nil, Expr.size_literal] at hsize
    simp only [Fragment.marks_append, Fragment.marks_op, hmarks, List.append_nil,
      Fragment.size_append, Fragment.size_op, List.length_cons, List.length_nil, Expr.size_const]
    exact ⟨List.nil_sublist _, by omega⟩

/-- The functions of a form are made from its places, and are no more than these, besides the
entry. -/
theorem within (h : EmitsForm ctx e f d) :
    (∀ g ∈ d.functions ++ [Compilation.entry ctx f d], g.Within e.places) ∧
      d.functions.length ≤ e.size := by
  have hgrown := h.grown
  obtain ⟨hmarks, hsize⟩ := h.code_within
  refine ⟨fun g hg => ?_, ?_⟩
  · rcases List.mem_append.1 hg with hg | hg
    · exact (hgrown.functions g hg).resolve_left (by simp)
    · obtain rfl := List.mem_singleton.1 hg
      have hframe : (0 : Int) ≤ 0 ∧ (0 : Int) ≤ Limit.slots := by decide
      have hpool := (h.kept Draft.Extends.kept).limit (Nat.zero_le _)
      exact Fragment.within rfl rfl hmarks hsize hframe hframe hpool
        (hgrown.slots (Nat.zero_le _))
  · have hcount := hgrown.count
    simpa [Expr.size] using hcount

end EmitsForm
end StackLisp
