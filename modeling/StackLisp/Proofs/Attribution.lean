import StackLisp.Proofs.Locations
import StackLisp.Proofs.Milestones

/-! Where calls are said to stand. The place that is found for a call is the last one that was begun
before the call is made, which is that of its last part and not that of the call itself, unless the
call has no part that is begun. -/
namespace StackLisp

open Lower
open Fragment (instr)

/-! ### Milestones stand in the source -/

theorem Expr.pos_mem_places (e : Expr) : e.pos ∈ e.places :=
  places_eq e ▸ List.mem_cons_self

theorem Expr.places_subset {e x : Expr} (h : x ∈ e.children) : x.places ⊆ e.places := by
  intro p hp
  rw [places_eq]
  exact List.mem_cons_of_mem _ (List.mem_flatMap.2 ⟨x, h, hp⟩)

/-- All milestones stand at places of the list. -/
structure Trail.Within (ps : List Position) (t : Trail) : Prop where
  own : ∀ m ∈ t.own, m.pos ∈ ps
  functions : ∀ ms ∈ t.functions, ∀ m ∈ ms, m.pos ∈ ps

namespace Trail.Within

variable {ps : List Position} {t u : Trail} {pos : Position}

theorem empty : ({} : Trail).Within ps := ⟨List.forall_mem_nil _, List.forall_mem_nil _⟩

theorem append (ht : t.Within ps) (hu : u.Within ps) : (t ++ u).Within ps :=
  ⟨List.forall_mem_append.2 ⟨ht.own, hu.own⟩,
    List.forall_mem_append.2 ⟨ht.functions, hu.functions⟩⟩

theorem begin (h : pos ∈ ps) : (Trail.begin pos).Within ps :=
  ⟨List.forall_mem_singleton.2 h, List.forall_mem_nil _⟩

theorem call (ht : t.Within ps) (h : pos ∈ ps) : (t ++ .call pos).Within ps :=
  ht.append ⟨List.forall_mem_singleton.2 h, List.forall_mem_nil _⟩

theorem enclosed (ht : t.Within ps) (h : pos ∈ ps) : (t.enclosed pos).Within ps :=
  ⟨List.forall_mem_nil _, List.forall_mem_append.2 ⟨ht.functions,
    List.forall_mem_singleton.2 (List.forall_mem_cons.2 ⟨h, ht.own⟩)⟩⟩

theorem all (ht : t.Within ps) : ∀ ms ∈ t.all, ∀ m ∈ ms, m.pos ∈ ps :=
  List.forall_mem_append.2 ⟨ht.functions, List.forall_mem_singleton.2 ht.own⟩

end Trail.Within

namespace Lower

variable {ps : List Position} {es : List Expr}

/-- The milestones of an expression stand at places of the list, wherever it is compiled. -/
def Placed (ps : List Position) (e : Expr) : Prop :=
  ∀ ctx test depth, (trail ctx test depth e).Within ps

theorem within_trails (h : ∀ e ∈ es, Placed ps e) (ctx : Context) (step depth : Nat) :
    (trails ctx step depth es).Within ps := by
  induction es generalizing depth with
  | nil =>
    rw [trails]
    exact .empty
  | cons e es ih =>
    obtain ⟨he, hes⟩ := List.forall_mem_cons.1 h
    rw [trails]
    exact (he _ _ _).append (ih hes _)

theorem within_trailAt (h : ∀ e ∈ es, Placed ps e) (ctx : Context) (test : Bool) (depth i : Nat) :
    (trailAt ctx test depth i es).Within ps := by
  cases hi : es[i]? with
  | none =>
    rw [trailAt_of_none hi]
    exact .empty
  | some e =>
    rw [trailAt_of_getElem? hi]
    exact h e (List.mem_of_getElem? hi) _ _ _

theorem within_trailElse {no : Option Expr} (h : ∀ e, no = some e → Placed ps e) (ctx : Context)
    (depth : Nat) : (trailElse ctx depth no).Within ps := by
  cases no with
  | none =>
    rw [trailElse]
    exact .empty
  | some e =>
    rw [trailElse]
    exact h e rfl _ _ _

theorem within_trailValues {bs : List (Binding Expr)} (h : ∀ b ∈ bs, Placed ps b.value)
    (ctx : Context) (depth : Nat) : (trailValues ctx depth bs).Within ps := by
  induction bs generalizing depth with
  | nil =>
    rw [trailValues]
    exact .empty
  | cons b bs ih =>
    obtain ⟨hb, hbs⟩ := List.forall_mem_cons.1 h
    rw [trailValues]
    exact (hb _ _ _).append (ih hbs _)

theorem placed_call {pos : Position} {fn : Expr} {args : List Expr} (hpos : pos ∈ ps)
    (hfn : Placed ps fn) (hargs : ∀ e ∈ args, Placed ps e) :
    Placed ps (.call pos fn args) := by
  intro ctx test depth
  have hone (i : Nat) := within_trailAt hargs ctx false depth i
  have hall (depth : Nat) := within_trails hargs ctx 1 depth
  rw [trail]
  split
  · exact within_trailAt hargs _ _ _ _
  refine (Trail.Within.begin hpos).append ?_
  cases called ctx fn with
  | self | named => exact (hall _).call hpos
  | computed => exact ((hfn _ _ _).append (hall _)).call hpos
  | builtin b =>
    dsimp only
    cases (Expr.call pos fn args).fold? ctx with
    | some v => exact .empty
    | none =>
      dsimp only
      cases shortcut? b (args.map fun e => e.fold? ctx) with
      | none => exact (hall _).call hpos
      | some s =>
        cases s with
        | operand i => exact hone i
        | unary c i | step o i => exact (hone i).call hpos

theorem placed_cond {pos : Position} {test yes : Expr} {no : Option Expr} (hpos : pos ∈ ps)
    (htest : Placed ps test) (hyes : Placed ps yes) (hno : ∀ e, no = some e → Placed ps e) :
    Placed ps (.cond pos test yes no) := by
  intro ctx _ depth
  have helse := within_trailElse hno ctx depth
  rw [trail]
  refine (Trail.Within.begin hpos).append ?_
  split
  · exact hyes _ _ _
  · exact helse
  · exact ((htest _ _ _).append (hyes _ _ _)).append helse

theorem placed (e : Expr) (h : e.places ⊆ ps) : Placed ps e := by
  have hpos (e : Expr) (h : e.places ⊆ ps) : e.pos ∈ ps := h e.pos_mem_places
  have hchild {e x : Expr} (h : e.places ⊆ ps) (hx : x ∈ e.children) : x.places ⊆ ps :=
    List.Subset.trans (Expr.places_subset hx) h
  induction e using Expr.induction with
  | literal pos v | ident pos name | define pos name value | const pos name value =>
    intro ctx test depth
    rw [trail]
    exact .begin (hpos _ h)
  | call pos fn args ihfn ihargs =>
    exact placed_call (hpos _ h) (ihfn (hchild h (.head _)))
      fun e he => ihargs e he (hchild h (.tail _ he))
  | cond pos test yes no ihtest ihyes ihno =>
    refine placed_cond (hpos _ h) (ihtest (hchild h (.head _)))
      (ihyes (hchild h (.tail _ (.head _)))) fun e he => ihno e he (hchild h ?_)
    subst he
    exact .tail _ (.tail _ (.head _))
  | lambda pos name params body ih =>
    intro ctx test depth
    rw [trail]
    exact (Trail.Within.begin (hpos _ h)).append
      ((within_trails (fun e he => ih e he (hchild h he)) _ _ _).enclosed (hpos _ h))
  | letIn pos bindings body ihvalues ihbody =>
    intro ctx test depth
    rw [trail]
    refine (Trail.Within.begin (hpos _ h)).append (.append ?_ ?_)
    · exact within_trailValues (fun b hb => ihvalues b hb
        (hchild h (List.mem_append_left _ (List.mem_map_of_mem hb)))) _ _
    · exact within_trails (fun e he => ihbody e he (hchild h (List.mem_append_right _ he))) _ _ _
  | block pos es ih | and pos es ih | or pos es ih =>
    intro ctx test depth
    rw [trail]
    exact (Trail.Within.begin (hpos _ h)).append
      (within_trails (fun e he => ih e he (hchild h he)) _ _ _)
  | apply pos fn args ihfn ihargs =>
    intro ctx test depth
    have hfn := ihfn (hchild h (.head _))
    have hall (depth : Nat) := within_trails
      (fun e he => ihargs e he (hchild h (.tail _ he))) ctx 1 depth
    rw [trail]
    refine (Trail.Within.begin (hpos _ h)).append ?_
    split
    · exact (hall _).call (hpos _ h)
    · exact ((hfn _ _ _).append (hall _)).call (hpos _ h)

end Lower

theorem Compilation.within_trail (ctx : Context) (e : Expr) :
    (trail ctx e).Within e.places := by
  unfold trail
  split
  · next place name pos own params body =>
    have hvalue : (Expr.lambda pos own params body).places ⊆
        (Expr.define place name (.lambda pos own params body)).places :=
      Expr.places_subset (.head _)
    have hpos := hvalue (Expr.pos_mem_places _)
    refine (Trail.Within.begin hpos).append (.enclosed ?_ hpos)
    exact Lower.within_trails
      (fun x hx => Lower.placed x (List.Subset.trans (Expr.places_subset hx) hvalue)) _ _ _
  · exact Lower.placed _ (Expr.places_subset (.head _)) _ _ _
  · exact .empty
  · exact Lower.placed _ (List.Subset.refl _) _ _ _

/-! ### The places found for calls -/

/-- A call and the expression that was begun last before it is made. -/
structure Site where
  origin : Position
  found : Option Position
deriving DecidableEq, Repr

/-- The calls among milestones, when `last` was begun before them. -/
def Site.among (last : Option Position) : List Milestone → List Site
  | [] => []
  | .begins p :: es => among (some p) es
  | .calls p :: es => ⟨p, last⟩ :: among last es

/-- The calls in the code of a function, with their offsets. -/
def Function.operations (g : Function) : List Instruction.Placed :=
  (Instruction.decodeFrom 0 g.bytes).1.filter fun p => p.instr.op.isOperation

theorem Function.Built.operations_eq {earlier : List Function} {g : Function}
    {is : List Instruction} (h : g.Built earlier is) : g.operations =
      (Instruction.placeFrom 0 is).filter fun p => p.instr.op.isOperation := by
  rw [operations, h.decodeFrom_bytes]

/-- For the call at `offset`, the function gives the place of the expression that was begun last;
it is that of the call only if none of its parts was begun. -/
structure Function.Attributes (g : Function) (offset : Int) (s : Site) : Prop where
  found : ∃ p, s.found = some p ∧ g.LocatedAt offset p
  origin : g.LocatedAt offset s.origin ↔ s.found = some s.origin

theorem Function.LocatedAt.attributes {g : Function} {offset : Int} {p q : Position}
    {ps : List Position} (h : g.LocatedAt offset q) (hps : ps.Pairwise Position.Before)
    (hp : p ∈ ps) (hq : q ∈ ps) : g.Attributes offset ⟨p, some q⟩ where
  found := ⟨q, rfl, h⟩
  origin := by
    rw [h.iff_eq, Option.some_inj]
    constructor
    · exact fun hsame => (Position.Before.eq_of_mem hps hp hq hsame).symm
    · rintro rfl
      exact ⟨rfl, rfl⟩

/-- From an item on, the calls are found where the last expression was begun. The code before it is
`front`. -/
theorem Function.attributes_from {g : Function} {f : Fragment} {ps : List Position}
    (hg : g.locations = f.locations) (hps : ps.Pairwise Position.Before) {items : List Item}
    {ms : List Milestone} (front : Fragment) (hf : f.items = front.items ++ items)
    (htrace : (⟨items, false⟩ : Fragment).trace = ms.map Milestone.shown)
    (hms : ∀ m ∈ ms, m.pos ∈ ps) (hlast : ∀ p, front.marks.getLast? = some p → p ∈ ps)
    (hled : front.marks = [] → ∀ p, ms.head? ≠ some (.calls p)) :
    List.Forall₂ (fun c s => g.Attributes c.offset s)
      ((Instruction.placeFrom front.size (⟨items, false⟩ : Fragment).instructions).filter
        fun p => p.instr.op.isOperation)
      (Site.among front.marks.getLast? ms) := by
  induction items generalizing front ms with
  | nil =>
    rw [List.map_eq_nil_iff.1 htrace.symm]
    exact .nil
  | cons item items ih =>
    cases item with
    | mark q =>
      obtain ⟨m, ms, rfl, hm, hrest⟩ := List.map_eq_cons_iff.1 htrace.symm
      cases m with
      | calls p => cases hm
      | begins p =>
        cases hm
        obtain ⟨hp, hms⟩ := List.forall_mem_cons.1 hms
        have hmarks : (front ++ ⟨[.mark q], false⟩ : Fragment).marks.getLast? = some q := by
          rw [Fragment.marks_append]
          exact List.getLast?_concat
        have hsize : (front ++ ⟨[.mark q], false⟩ : Fragment).size = front.size :=
          Fragment.size_append _ _
        have hnext := ih (front ++ ⟨[.mark q], false⟩)
          (hf.trans (List.append_cons _ _ _)) hrest.symm hms
          (fun r hr => Option.some.inj (hmarks.symm.trans hr) ▸ hp)
          (fun hnil => by rw [hnil] at hmarks; cases hmarks)
        rw [hmarks, hsize] at hnext
        exact hnext
    | instr i =>
      have hmarks : (front ++ instr i).marks = front.marks := by simp
      have hsize : (front ++ instr i).size = front.size + i.size := by simp
      have hplaced : Instruction.placeFrom front.size
          (⟨.instr i :: items, false⟩ : Fragment).instructions = ⟨front.size, i⟩ ::
            Instruction.placeFrom (front.size + i.size)
              (⟨items, false⟩ : Fragment).instructions := rfl
      have hitems : f.items = (front ++ instr i).items ++ items := hf.trans (List.append_cons _ _ _)
      have hcons : (⟨.instr i :: items, false⟩ : Fragment).trace =
          (instr i).trace ++ (⟨items, false⟩ : Fragment).trace :=
        Fragment.trace_append (instr i) ⟨items, false⟩
      rw [hplaced, ← hsize, List.filter_cons]
      cases hop : i.op.isOperation with
      | false =>
        rw [hcons, Fragment.trace_instr hop, List.nil_append] at htrace
        have hnext := ih _ hitems htrace hms (hmarks ▸ hlast) (hmarks ▸ hled)
        rw [hmarks] at hnext
        exact hnext
      | true =>
        rw [hcons, Fragment.trace_call hop] at htrace
        obtain ⟨m, ms, rfl, hm, hrest⟩ := List.map_eq_cons_iff.1 htrace.symm
        cases m with
        | begins p => cases hm
        | calls p =>
          obtain ⟨hp, hms⟩ := List.forall_mem_cons.1 hms
          have hmarked : front.marks ≠ [] := fun hnil => hled hnil p rfl
          have hnext := ih _ hitems hrest.symm hms (hmarks ▸ hlast)
            fun hnil => absurd (hmarks.symm.trans hnil) hmarked
          rw [hmarks] at hnext
          rw [List.getLast?_eq_some_getLast hmarked] at hlast hnext ⊢
          have hlocated := Function.locatedAt hg hf (List.getLast?_eq_some_getLast hmarked)
          exact .cons (hlocated.attributes hps hp (hlast _ rfl)) hnext

/-- A function that follows the source finds its calls where the last expression was begun. -/
theorem Function.Follows.attributes {g : Function} {ms : List Milestone} (h : g.Follows ms)
    {ps : List Position} (hps : ps.Pairwise Position.Before) (hms : ∀ m ∈ ms, m.pos ∈ ps) :
    List.Forall₂ (fun c s => g.Attributes c.offset s) g.operations (Site.among none ms) := by
  obtain ⟨earlier, f, hbuilt, hlocations, htrace⟩ := h.code
  rw [hbuilt.operations_eq]
  exact attributes_from hlocations hps {} rfl htrace hms (fun _ hp => by cases hp)
    fun _ => h.led

theorem Function.Follows.attributes_all {gs : List Function} {lists : List (List Milestone)}
    (h : List.Forall₂ Follows gs lists) {ps : List Position} (hps : ps.Pairwise Position.Before)
    (hms : ∀ ms ∈ lists, ∀ m ∈ ms, m.pos ∈ ps) :
    List.Forall₂ (fun g ms => List.Forall₂ (fun i s => g.Attributes i.offset s) g.operations
      (Site.among none ms)) gs lists := by
  induction h with
  | nil => exact .nil
  | cons hg _ ih =>
    obtain ⟨hfirst, hrest⟩ := List.forall_mem_cons.1 hms
    exact .cons (hg.attributes hps hfirst) (ih hrest)

/-- Two calls of the function itself, without operands, then a sum and the call of both. -/
def Program.ownCalls : Bytes := Text.lit "(define (g) (println (g) (+ (g) 1)))"

namespace Compilation

/-- In all functions that are compiled from a text, the calls are those of the source, in the order
in which they are made, and the place found for each is that of the expression begun last before it:
a call is found at its own place exactly if none of its parts was begun. -/
theorem compile_attributes {reading : ReadOptions} {source : Bytes} {options : CompileOptions}
    {env : Environment} {c : Compilation}
    (h : compile options env (Program.read reading source).forms = .ok c) (k : Nat) (img : Image)
    (himg : c.images[k]? = some img) :
    ∃ e ctx, (Program.read reading source).forms[k]? = some e ∧ Compiles options k ctx e img ∧
      List.Forall₂ (fun g ms => List.Forall₂ (fun i s => g.Attributes i.offset s)
        g.operations (Site.among none ms)) img.functions (trail ctx e).all := by
  obtain ⟨e, ctx, he, hcompiles⟩ := (compiles_compile h).2 k img himg
  have hps := (Program.read_ordered reading source).sublist
    (Expr.places_sublist (List.mem_of_getElem? he))
  exact ⟨e, ctx, he, hcompiles,
    Function.Follows.attributes_all hcompiles.follows hps (within_trail ctx e).all⟩

/-- The call `(println 1)` starts the text and is found at its operand. -/
theorem println_found_at_operand :
    (Program.read {} (Text.lit "(println 1)")).forms.map
        (fun e => (e.pos.lineNumber, e.pos.columnNumber)) = [(1, 1)] ∧
      (compile {} {} (Program.read {} (Text.lit "(println 1)")).forms).toOption.map (fun c =>
        (c.images.flatMap Image.functions).flatMap fun g => g.operations.map fun i =>
          (i.instr.op, g.locationFor i.offset)) =
        some [(.callSysArgs, some ⟨0, 1, 10⟩)] :=
  ⟨by decide +kernel, by decide +kernel⟩

/-- Only the calls without operands are found where they stand. -/
theorem ownCalls_attributes :
    ∃ c, compile {} {} (Program.read {} Program.ownCalls).forms = .ok c ∧
      c.images.map (fun img => img.functions.map fun g => g.operations.map fun i =>
        (i.instr.op, (g.locationFor i.offset).map SourceLocation.column)) =
        [[[(.callSelf, some 22), (.callSelf, some 29), (.inc, some 29),
          (.callSysArgs, some 29)], []]] ∧
      ∀ (k : Nat) (img : Image), c.images[k]? = some img →
        ∃ e ctx, (Program.read {} Program.ownCalls).forms[k]? = some e ∧ Compiles {} k ctx e img ∧
          List.Forall₂ (fun g ms => List.Forall₂ (fun i s => g.Attributes i.offset s)
            g.operations (Site.among none ms)) img.functions (trail ctx e).all := by
  have hcalls : (compile {} {} (Program.read {} Program.ownCalls).forms).toOption.map
      (fun c => c.images.map fun img => img.functions.map fun g => g.operations.map fun i =>
        (i.instr.op, (g.locationFor i.offset).map SourceLocation.column)) =
        some [[[(.callSelf, some 22), (.callSelf, some 29), (.inc, some 29),
          (.callSysArgs, some 29)], []]] := by
    decide +kernel
  cases h : compile {} {} (Program.read {} Program.ownCalls).forms with
  | error r =>
    rw [h] at hcalls
    cases hcalls
  | ok c =>
    rw [h] at hcalls
    exact ⟨c, rfl, Option.some.inj hcalls, fun k img himg => compile_attributes h k img himg⟩

end Compilation

end StackLisp
