import StackLisp.Proofs.Comparisons
import StackLisp.Proofs.ExactIntegers
import StackLisp.Proofs.Simulation

/-! Calls that are rewritten compute what the calls do that they stand for. The code of a rewritten
call is run with folding as the meaning of system functions. -/
namespace StackLisp

open Evaluation (Rest Rewrite)

namespace Checked

/-- One more, except for the largest integer. -/
def successor (a : Int64) : Option Int64 := if a = .maxValue then none else some (a + 1)

/-- One less, except for the smallest integer. -/
def predecessor (a : Int64) : Option Int64 := if a = .minValue then none else some (a - 1)

variable {a r : Int64}

theorem successor_eq_some : successor a = some r ↔ r.toInt = a.toInt + 1 := by
  refine guarded_eq_some (by rw [Int64.toInt_add, Int64.toInt_one]) ?_
  have ha := inRange_toInt a
  rw [← Int64.toInt_inj, Int64.toInt_maxValue]
  unfold InRange at *
  omega

theorem predecessor_eq_some : predecessor a = some r ↔ r.toInt = a.toInt - 1 := by
  refine guarded_eq_some (by rw [Int64.toInt_sub, Int64.toInt_one]) ?_
  have ha := inRange_toInt a
  rw [← Int64.toInt_inj, Int64.toInt_minValue]
  unfold InRange at *
  omega

/-- Operations that have their values for the same integers are the same. -/
theorem eq_of_toInt {x y : Option Int64} {n m : Int} (hx : ∀ r, x = some r ↔ r.toInt = n)
    (hy : ∀ r, y = some r ↔ r.toInt = m) (h : n = m) : x = y :=
  Option.ext fun r => by rw [hx, hy, h]

theorem some_eq_some : some a = some r ↔ r.toInt = a.toInt := by
  rw [Option.some_inj, ← Int64.toInt_inj]
  exact eq_comm

theorem add_zero (a : Int64) : add a 0 = some a :=
  eq_of_toInt (fun _ => add_eq_some) (fun _ => some_eq_some) (Int.add_zero _)

theorem zero_add (a : Int64) : add 0 a = some a :=
  eq_of_toInt (fun _ => add_eq_some) (fun _ => some_eq_some) (Int.zero_add _)

theorem sub_zero (a : Int64) : sub a 0 = some a :=
  eq_of_toInt (fun _ => sub_eq_some) (fun _ => some_eq_some) (Int.sub_zero _)

theorem add_one (a : Int64) : add a 1 = successor a :=
  eq_of_toInt (fun _ => add_eq_some) (fun _ => successor_eq_some) rfl

theorem one_add (a : Int64) : add 1 a = successor a :=
  eq_of_toInt (fun _ => add_eq_some) (fun _ => successor_eq_some) (Int.add_comm _ _)

theorem add_minusOne (a : Int64) : add a (-1) = predecessor a :=
  eq_of_toInt (fun _ => add_eq_some) (fun _ => predecessor_eq_some) rfl

theorem minusOne_add (a : Int64) : add (-1) a = predecessor a :=
  eq_of_toInt (fun _ => add_eq_some) (fun _ => predecessor_eq_some) (Int.add_comm _ _)

theorem sub_one (a : Int64) : sub a 1 = predecessor a :=
  eq_of_toInt (fun _ => sub_eq_some) (fun _ => predecessor_eq_some) rfl

theorem sub_minusOne (a : Int64) : sub a (-1) = successor a :=
  eq_of_toInt (fun _ => sub_eq_some) (fun _ => successor_eq_some) rfl

theorem floorQuotient_one (a : Int64) : divide floorQuotient a 1 = some a := by
  refine floorQuotient_eq_some.2 ⟨by decide, ?_⟩
  rw [Int64.toInt_one, Int.cast_one, div_one, Int.floor_intCast]

end Checked

namespace Value

/-- The value after an increment; texts and truth values have none. -/
def increment : Value → Option Value
  | int i => (Checked.successor i).map int
  | float x => some (float (x.add (Double.ofInt 1)))
  | _ => none

def decrement : Value → Option Value
  | int i => (Checked.predecessor i).map int
  | float x => some (float (x.sub (Double.ofInt 1)))
  | _ => none

theorem int_or_not_number {w : Value} (h : ¬ w.IsFloat) :
    (∃ i, w = int i) ∨ w.isNumber = false := by
  cases w with
  | int i => exact .inl ⟨i, rfl⟩
  | float x => exact absurd ⟨x, rfl⟩ h
  | _ => exact .inr rfl

end Value

namespace Folding

/-- A value that is no number leaves an operation on numbers without a value. -/
theorem ofValues?_eq_none {vs : List Value} {v : Value} (hv : v ∈ vs) (h : v.isNumber = false) :
    Numbers.ofValues? vs = none := by
  have hnone : v.toInt64? = none ∧ v.toDouble? = none := by
    cases v with
    | int | float => cases h
    | _ => exact ⟨rfl, rfl⟩
  rw [Numbers.ofValues?, List.mapM_eq_none hv hnone.1, List.mapM_eq_none hv hnone.2]
  rfl

theorem chainInt_one (step : Int64 → Int64 → Option Int64) (n m : Int64) :
    chainInt step n [m] = (step n m).map .int :=
  Option.map_eq_bind.symm

theorem sum_one (a : Int64) : sum [.int a] = some (.int a) := by
  refine (sum_ints [a]).trans ?_
  rw [chainInt_one, Checked.zero_add]
  rfl

theorem sum_two (a b : Int64) : sum [.int a, .int b] = (Checked.add a b).map .int := by
  refine (sum_ints [a, b]).trans ?_
  rw [chainInt, Checked.zero_add]
  exact chainInt_one Checked.add a b

end Folding

namespace Evaluation

/-- What is left of a rewritten call, folded on the remaining operand. -/
def Rest.fold? : Rest → Value → Option Value
  | .call p, w => p.fold? [w]
  | .increment, w => w.increment
  | .decrement, w => w.decrement

/-- The operands of the call that a row of the table stands for. -/
def Rewrite.arguments (r : Rewrite) (w : Value) : List Value :=
  [r.left.elim w fun k => .int (.ofInt k), r.right.elim w fun k => .int (.ofInt k)]

open Folding in
/-- On integers, each row of the table computes what the call does. -/
theorem Rewrite.fold?_int {r : Rewrite} (hr : r ∈ all) (i : Int64) :
    r.rest.fold? (.int i) = r.primitive.fold? (r.arguments (.int i)) := by
  unfold all at hr
  simp only [List.mem_cons, List.not_mem_nil, or_false] at hr
  rcases hr with rfl | rfl | rfl | rfl | rfl | rfl | rfl | rfl | rfl | rfl | rfl | rfl
  · change sum [.int i] = sum [.int i, .int 0]
    rw [sum_one, sum_two, Checked.add_zero, Option.map_some]
  · change sum [.int i] = sum [.int 0, .int i]
    rw [sum_one, sum_two, Checked.zero_add, Option.map_some]
  · change (Checked.successor i).map .int = sum [.int i, .int 1]
    rw [sum_two, Checked.add_one]
  · change (Checked.successor i).map .int = sum [.int 1, .int i]
    rw [sum_two, Checked.one_add]
  · change (Checked.predecessor i).map .int = sum [.int i, .int (-1)]
    rw [sum_two, Checked.add_minusOne]
  · change (Checked.predecessor i).map .int = sum [.int (-1), .int i]
    rw [sum_two, Checked.minusOne_add]
  · change sum [.int i] = chainInt Checked.sub i [0]
    rw [sum_one, chainInt_one, Checked.sub_zero, Option.map_some]
  · rfl
  · change (Checked.predecessor i).map .int = chainInt Checked.sub i [1]
    rw [chainInt_one, Checked.sub_one]
  · change (Checked.successor i).map .int = chainInt Checked.sub i [-1]
    rw [chainInt_one, Checked.sub_minusOne]
  · rfl
  · change some (.int i) = chainInt (Checked.divide Checked.floorQuotient) i [1]
    rw [chainInt_one, Checked.floorQuotient_one, Option.map_some]

theorem fold?_not_number {p : Primitive} (hp : p ∈ [.add, .sub, .floorDiv]) {vs : List Value}
    {w : Value} (hmem : w ∈ vs) (hw : w.isNumber = false) : p.fold? vs = none := by
  have hnone := Folding.ofValues?_eq_none hmem hw
  simp only [List.mem_cons, List.not_mem_nil, or_false] at hp
  rcases hp with rfl | rfl | rfl
  · rw [Primitive.fold?, Folding.sum, hnone]
    rfl
  · rw [Primitive.fold?, Folding.difference, hnone]
    rfl
  · rw [Primitive.fold?, Folding.quotient, hnone]
    rfl

theorem Rest.fold?_not_number {rest : Rest} {w : Value} (hw : w.isNumber = false)
    (hrest : ∀ p, rest = .call p → p ∈ [.add, .sub, .floorDiv] ∨ p = .floor) :
    rest.fold? w = none := by
  cases rest with
  | call p =>
    rcases hrest p rfl with hp | rfl
    · exact Evaluation.fold?_not_number hp List.mem_cons_self hw
    · cases w <;> cases hw <;> rfl
  | increment | decrement => cases w <;> cases hw <;> rfl

/-- The table is about operations on numbers, of which one operand is left. -/
theorem Rewrite.operations {r : Rewrite} (hr : r ∈ all) :
    r.primitive ∈ [.add, .sub, .floorDiv] ∧ (r.left = none ∨ r.right = none) ∧
      ∀ p, r.rest = .call p → p ∈ [.add, .sub, .floorDiv] ∨ p = .floor := by
  have hcalls : r.rest ∈ [.increment, .decrement, .call .add, .call .sub, .call .floorDiv,
      .call .floor] := by
    revert r
    decide
  refine ⟨by revert r; decide, by revert r; decide, fun p hp => ?_⟩
  rw [hp] at hcalls
  simpa [or_assoc] using hcalls

/-- Each row of the table computes what the call does, or neither has a value. -/
theorem Rewrite.fold?_eq {r : Rewrite} (hr : r ∈ all) {w : Value} (hw : ¬ w.IsFloat) :
    r.rest.fold? w = r.primitive.fold? (r.arguments w) := by
  obtain ⟨hp, hopen, hcalls⟩ := operations hr
  rcases Value.int_or_not_number hw with ⟨i, rfl⟩ | hw
  · exact fold?_int hr i
  · have hmem : w ∈ r.arguments w := by
      rcases hopen with h | h <;> simp [arguments, h]
    rw [Rest.fold?_not_number hw hcalls, fold?_not_number hp hmem hw]

end Evaluation

/-! ### Running rewritten calls -/

/-- What folding answers to a request; a missing value stands for a failure. -/
def Request.fold? : Request (Option Value) → Option Value
  | .increment v => v.bind Value.increment
  | .decrement v => v.bind Value.decrement
  | .builtin id args => do
    let p ← Primitive.ofNumber? id
    let vs ← args.mapM fun v => v
    p.fold? vs
  | _ => none

/-- A runtime that knows only the system functions, by what folding makes of them. -/
def Runtime.folding : Runtime (Option Value) Unit where
  constant
    | .value v => some v
    | _ => none
  truthy v := v != some (.bool false)
  answer r _ := (r.fold?, ())

namespace Lower

open Processor

variable {ctx : Context} {use : Use} {base depth : Nat} {pos : Position} {fn x y : Expr}
  {b : Builtin} {d d' : Draft} {f : Fragment} {s : Shortcut}

/-- What a shortcut adds to the code of its operand. -/
def Shortcut.emitted : Shortcut → Fragment → Fragment
  | .operand _, g => g
  | .unary c _, g => g.pushed ++ callBuiltin c 1
  | .step o _, g => g ++ Fragment.op o

/-- A call that is cut short has the code of one operand and of what is left. -/
theorem yields_shortcut {args : List Expr} (hargs : args.length ≠ 1)
    (h : Yields (expr ctx use base depth (.call pos fn args)) d f d')
    (hcallee : Yields (callee ctx fn) d (.builtin b) d)
    (hfold : (Expr.call pos fn args).fold? ctx = none)
    (hs : shortcut? b (args.map fun e => e.fold? ctx) = some s) :
    ∃ g, Yields (operandAt ctx .value base depth s.index args) d g d' ∧
      f = (s.emitted g).marked pos := by
  rw [expr, if_neg fun hneg => hargs (isNegation_argc hneg.2)] at h
  obtain ⟨whole, hwhole, rfl⟩ := yields_map.1 h
  obtain ⟨-, hcall⟩ := yields_unless hwhole
  obtain ⟨c, d₀, hc, hcall⟩ := yields_bind.1 hcall
  cases hc.symm.trans hcallee
  obtain ⟨-, hbuiltin⟩ := yields_unless hcall
  simp only [hfold, hs] at hbuiltin
  cases s with
  | operand i => exact ⟨whole, hbuiltin, rfl⟩
  | unary c i | step o i =>
    obtain ⟨g, d₁, hg, hpure⟩ := yields_bind.1 hbuiltin
    obtain ⟨rfl, rfl⟩ := yields_pure.1 hpure
    exact ⟨g, hg, rfl⟩

theorem Shortcut.index_of_realizes {i : Nat} {rest : Option Rest} (h : s.Realizes (i, rest)) :
    s.index = i := by
  unfold Realizes at h
  grind [Shortcut.index]

theorem rewriting?_eq {p : Primitive} (hp : b.primitive? = some p) (hid : p ≠ .identity)
    (known : List (Option Value)) :
    Evaluation.rewriting? b known =
      (Rewrite.find? p (known.map fun v => v.bind Value.toInt?)).map fun r =>
        (r.operand, some r.rest) := by
  rw [Evaluation.rewriting?, hp]
  cases p with
  | identity => exact absurd rfl hid
  | _ => rfl

/-- A shortcut follows the first row of the table that applies. -/
theorem rewrite_of_shortcut? {p : Primitive} (hp : b.primitive? = some p) (hid : p ≠ .identity)
    {known : List (Option Value)} (hs : shortcut? b known = some s) :
    ∃ r ∈ Rewrite.all, r.applies p (known.map fun v => v.bind Value.toInt?) = true ∧
      s.Realizes (r.operand, some r.rest) := by
  have hother (hidentity : b.primitive? = some .identity) : known.length = 1 :=
    absurd (Option.some.inj (hp.symm.trans hidentity)) hid
  have hmatch := Shortcut.matches_rewriting hother
  rw [hs, rewriting?_eq hp hid] at hmatch
  cases hfind : Rewrite.find? p (known.map fun v => v.bind Value.toInt?) with
  | none =>
    rw [hfind] at hmatch
    cases hmatch
  | some r =>
    rw [hfind] at hmatch
    unfold Rewrite.find? at hfind
    have happlies := List.find?_some hfind
    exact ⟨r, List.mem_of_find?_eq_some hfind, happlies, hmatch⟩

section
variable {pool : List Constant} {code : Bytes} {stack : List (Option Value)} {g : Fragment}
  {c : StateM (World (Option Value) Unit) (Option Value)}

/-- The code of a shortcut folds what is left of the call, on the value of the operand. -/
theorem runs_emitted {i : Nat} {rest : Rest} (hs : s.Realizes (i, some rest))
    (hg : (Processor.mk .folding pool code).Computes base g stack c)
    (hcode : (Processor.mk .folding pool code).Holds base (s.emitted g).instructions)
    (r : Option Value) (world : World (Option Value) Unit) {w : Value}
    (hw : (c world).1 = some w) :
    ∃ world', (Processor.mk .folding pool code).Runs ⟨base, r, stack, world⟩ (.running
      ⟨base + (s.emitted g).size, rest.fold? w, stack, world'⟩) := by
  have hpush := hg.pushes r world
  have hvalue := hg.delivers r world
  rw [hw] at hpush hvalue
  cases s with
  | operand j => cases hs
  | unary b j =>
    cases rest with
    | call p =>
      have hcall := hpush.append (goes_callBuiltin b [some w] _ _)
      have hnumber : Primitive.ofNumber? b.id.toNat = some p := by
        rw [hs.2]
        cases p <;> rfl
      have hanswer : Request.fold? (.builtin b.id.toNat [some w]) = p.fold? [w] := by
        rw [Request.fold?, hnumber]
        rfl
      have hrest : Rest.fold? (.call p) w = p.fold? [w] := rfl
      rw [hrest, ← hanswer]
      exact ⟨_, hcall hcode⟩
    | increment | decrement => cases hs
  | step o j =>
    cases rest with
    | call p => cases o <;> cases hs
    | increment =>
      cases o with
      | inc =>
        have hstep := hvalue.append (goes_instr (i := ⟨.inc, []⟩)
          (t := ⟨w.increment, stack, (Runtime.folding.ask (.increment (some w)) _).2⟩) rfl)
        exact ⟨_, hstep hcode⟩
      | _ => cases hs
    | decrement =>
      cases o with
      | dec =>
        have hstep := hvalue.append (goes_instr (i := ⟨.dec, []⟩)
          (t := ⟨w.decrement, stack, (Runtime.folding.ask (.decrement (some w)) _).2⟩) rfl)
        exact ⟨_, hstep hcode⟩
      | _ => cases hs

end

theorem eq_int_of_toInt? {v : Option Value} {n : Int} (h : v.bind Value.toInt? = some n) :
    v = some (.int (.ofInt n)) := by
  obtain ⟨w, rfl, hw⟩ := Option.bind_eq_some_iff.1 h
  obtain ⟨i, hi, rfl⟩ := Option.map_eq_some_iff.1 hw
  rw [Int64.ofInt_toInt]
  cases w <;> cases hi
  rfl

/-- A row that applies has met its known operand; the other one is still to be evaluated. -/
theorem operands_of_applies {r : Rewrite} (hr : r ∈ Rewrite.all) {p : Primitive}
    {u v : Option Value}
    (h : r.applies p ([u, v].map fun e => e.bind Value.toInt?) = true) :
    r.primitive = p ∧ ∃ k : Int64,
      (r.operand = 0 ∧ v = some (.int k) ∧ ∀ w, r.arguments w = [w, .int k]) ∨
      (r.operand = 1 ∧ u = some (.int k) ∧ ∀ w, r.arguments w = [.int k, w]) := by
  have hone : (r.left = none ∧ r.right ≠ none) ∨ (r.left ≠ none ∧ r.right = none) := by
    clear h
    revert r
    decide
  simp only [List.map_cons, List.map_nil, Rewrite.applies, Bool.and_eq_true, Bool.or_eq_true,
    decide_eq_true_eq] at h
  obtain ⟨⟨rfl, hleft⟩, hright⟩ := h
  refine ⟨rfl, ?_⟩
  rcases hone with ⟨hl, hrt⟩ | ⟨hl, hrt⟩
  · obtain ⟨n, hn⟩ := Option.ne_none_iff_exists'.1 hrt
    have hv := eq_int_of_toInt? ((hright.resolve_left hrt).trans hn)
    exact ⟨_, .inl ⟨if_pos hl, hv, fun w => by rw [Rewrite.arguments, hl, hn]; rfl⟩⟩
  · obtain ⟨n, hn⟩ := Option.ne_none_iff_exists'.1 hl
    have hu := eq_int_of_toInt? ((hleft.resolve_left hl).trans hn)
    exact ⟨_, .inr ⟨if_neg hl, hu, fun w => by rw [Rewrite.arguments, hrt, hn]; rfl⟩⟩

/-- A call of `+`, `-` or `//` that is cut short keeps one operand, beside an integer that is
known. For every value of it but a float, the code leaves what folding makes of both operands, in
their order; a missing value stands for a failure. -/
theorem expr_rewritten {p : Primitive}
    (hlower : expr ctx use base depth (.call pos fn [x, y]) d = (.ok f, d'))
    (hcallee : Yields (callee ctx fn) d (.builtin b) d)
    (hfold : (Expr.call pos fn [x, y]).fold? ctx = none)
    (hprimitive : b.primitive? = some p) (hp : p ∈ [.add, .sub, .floorDiv])
    (hs : shortcut? b [x.fold? ctx, y.fold? ctx] = some s) :
    ∃ operand other g k,
      ([x, y] = if s.index = 0 then [operand, other] else [other, operand]) ∧
      other.fold? ctx = some (.int k) ∧
      expr ctx .value base depth operand d = (.ok g, d') ∧
      ∀ (pool : List Constant) (code : Bytes) (stack : List (Option Value))
        (c : StateM (World (Option Value) Unit) (Option Value)),
        (Processor.mk .folding pool code).Computes base g stack c →
        (Processor.mk .folding pool code).Holds base f.instructions →
        ∀ r world w, ¬ w.IsFloat → (c world).1 = some w → ∃ world',
          (Processor.mk .folding pool code).Runs ⟨base, r, stack, world⟩ (.running
            ⟨base + f.size,
              p.fold? (if s.index = 0 then [w, .int k] else [.int k, w]), stack, world'⟩) := by
  have hid : p ≠ .identity := by
    rintro rfl
    simp at hp
  obtain ⟨g, hg, rfl⟩ := yields_shortcut (by simp) hlower hcallee hfold hs
  obtain ⟨row, hrow, happlies, hreal⟩ := rewrite_of_shortcut? hprimitive hid hs
  obtain ⟨rfl, k, hoperand⟩ := operands_of_applies hrow happlies
  rw [Shortcut.index_of_realizes hreal] at hg ⊢
  -- Whichever operand is open, the table says what its value becomes.
  have hruns : ∀ (pool : List Constant) (code : Bytes) (stack : List (Option Value))
      (c : StateM (World (Option Value) Unit) (Option Value)),
      (Processor.mk .folding pool code).Computes base g stack c →
      (Processor.mk .folding pool code).Holds base ((s.emitted g).marked pos).instructions →
      ∀ r world w, ¬ w.IsFloat → (c world).1 = some w → ∃ world',
        (Processor.mk .folding pool code).Runs ⟨base, r, stack, world⟩ (.running
          ⟨base + (s.emitted g).size, row.primitive.fold? (row.arguments w), stack, world'⟩) := by
    intro pool code stack c hcomputes hcode r world w hw hvalue
    rw [← Rewrite.fold?_eq hrow hw]
    exact runs_emitted hreal hcomputes hcode r world hvalue
  rcases hoperand with ⟨hopen, hknown, hargs⟩ | ⟨hopen, hknown, hargs⟩
  · rw [hopen, operandAt] at hg
    simp only [hargs] at hruns
    simp only [hopen, if_true]
    exact ⟨x, y, g, k, rfl, hknown, hg, hruns⟩
  · rw [hopen, operandAt, operandAt] at hg
    simp only [hargs] at hruns
    simp only [hopen, Nat.one_ne_zero, if_false]
    exact ⟨y, x, g, k, rfl, hknown, hg, hruns⟩

/-- The least integer has no opposite, so neither `(- 0 a)` nor the call that stands for it has a
value there. -/
theorem expr_rewritten_least :
    let ctx : Context := { options := {}, env := {}, frame := { locals := [([97], 0)] } }
    let least := Value.int Int64.minValue
    ∃ f, expr ctx .value 0 1
        (.call {} (.ident {} [45]) [.literal {} (.int 0), .ident {} [97]]) {} = (.ok f, {}) ∧
      f.code = [11, 79, 1, 1] ∧ Primitive.sub.fold? [.int 0, least] = none ∧
      ∃ world', (Processor.mk .folding [] f.code).Runs
        ⟨0, none, [some least], ⟨(), []⟩⟩ (.running ⟨f.size, none, [some least], world'⟩) := by
  intro ctx least
  have hlower : expr ctx .value 0 1
      (.call {} (.ident {} [45]) [.literal {} (.int 0), .ident {} [97]]) {} = (.ok _, {}) := rfl
  have hfails : Primitive.sub.fold? [.int 0, least] = none := by decide +kernel
  refine ⟨_, hlower, by decide +kernel, hfails, ?_⟩
  obtain ⟨operand, other, g, k, hargs, hk, hg, hrun⟩ := expr_rewritten hlower
    (b := .ofPrimitive .sub) (p := .sub) (s := .unary (.ofPrimitive .sub) 1) rfl
    (by decide +kernel) (by decide +kernel) (by decide) (by decide +kernel)
  cases hargs
  cases hk
  cases hg
  have hsound := (adequate _ hlower).sound (by unfold Frame.Below; decide) (by decide)
  obtain ⟨world', hrun⟩ := hrun [] _ [some least] (pure (some least))
    (Computes.marked (computes_instr rfl fun _ _ _ _ => rfl) (Fragment.ends_instr _) {})
    (Fragment.StandsIn.holds ⟨[], [], rfl, rfl⟩ hsound) none ⟨(), []⟩ least
    (by simp [least, Value.IsFloat]) rfl
  rw [Nat.zero_add] at hrun
  exact ⟨world', hfails ▸ hrun⟩

end Lower
end StackLisp
