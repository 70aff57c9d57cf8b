import StackLisp.Proofs.Assembly
import StackLisp.Proofs.Writing

/-! Compilation is free of defects. With everything checked that the compiler takes for granted,
the forms of a program have the same images or are refused for the same reasons, and because of a
limit exactly where it is exceeded. -/
namespace StackLisp

open Fragment (op)

namespace Emitter

variable {ctx : Context} {pos : Position} {name : Bytes} {value : Expr}

/-- The buffer holds the whole code of a form. -/
def Whole (f : Fragment) (s : State) (d : Draft) : Prop := f.Ends ∧ At f 0 s d

theorem leads_publish {f : Fragment} {i : Nat} (hi : i < 256) :
    Leads (At f 0) (emit ⟨.setDef, [i]⟩) fun _ => Whole (f ++ op .setDef [i]) := by
  intro s d hat
  have hfits : (⟨.setDef, [i]⟩ : Instruction).Fits := ⟨rfl, by simpa using hi⟩
  obtain ⟨_, s', hemit, hat'⟩ := leads_emit hfits s d hat
  exact ⟨_, s', hemit, (Fragment.ends_op _ _).append f, hat'⟩

theorem follows_define (hctx : Regular ctx) :
    Follows (At {} 0) (define ctx pos name value) (Compilation.define ctx pos name value)
      fun _ => Whole := by
  unfold define Compilation.define
  refine (enters_value _).bind fun i hi => ?_
  have publish {m : Emitter Unit} {l : Lower Fragment} (h : Writes {} 0 m l) :
      Follows (At {} 0) (do m; emit ⟨.setDef, [i]⟩) (do let f ← l; pure (f ++ op .setDef [i]))
        fun _ => Whole :=
    h.bind fun _ f _ => (leads_publish hi).last
  cases value with
  | lambda place own params body =>
    have hfunction : Writes (Fragment.thenMark {} place) 0
        (function ctx place name params (Expr.freeNames own params body) fun inner slots =>
          sequence inner .tail slots body) _ :=
      writes_function (fun e _ => written e) hctx
    have hpublish := publish hfunction.marked
    rw [bind_assoc] at hpublish
    exact hpublish
  | _ => exact publish (written _ hctx rfl)

theorem follows_const (hctx : Regular ctx) :
    Follows (At {} 0) (const ctx pos name value) (Compilation.const ctx pos name value)
      fun v r s d => v = r.2 ∧ Whole r.1 s d := by
  unfold const Compilation.const
  refine follows_given (Expr.evaluate_eq hctx.builtins value) ?_
  cases value.fold? ctx with
  | none => exact follows_refuse rfl
  | some v =>
    refine (enters_value _).bind fun i hi => ?_
    refine (writes_load v).bind fun _ f _ => Leads.last ?_
    refine (leads_publish hi).andThen fun _ => ?_
    exact leads_pure fun s d hwhole => ⟨rfl, hwhole⟩

theorem follows_formCode (hctx : Regular ctx) (e : Expr) :
    Follows (At {} 0) (formCode ctx e) (Compilation.formCode ctx e)
      fun env r s d => env = r.2 ∧ Whole r.1 s d := by
  have expression : Follows (At {} 0) (do expr ctx .tail 0 e; pure ctx.env)
      (do let f ← Lower.expr ctx .tail 0 0 e; pure (f, ctx.env))
      fun env r s d => env = r.2 ∧ Whole r.1 s d := by
    refine Follows.bind (written e hctx rfl) fun _ f hf => Leads.last ?_
    obtain ⟨_, _, hyields⟩ := hf
    exact leads_pure fun s d hat => ⟨rfl, Written.ends hyields, hat⟩
  cases e with
  | define pos name value =>
    refine (follows_define hctx).bind fun _ f _ => Leads.last ?_
    exact leads_pure fun s d hwhole => ⟨rfl, hwhole⟩
  | const pos name value =>
    refine (follows_const hctx).bind fun v r _ => ?_
    rintro s d ⟨rfl, hwhole⟩
    exact ⟨_, s, rfl, rfl, hwhole⟩
  | _ => exact expression

/-- What was asked for before compilation ended: there was enough for all demands, or they account
for the refusal. -/
def Settles {α : Type} (qs : List Demand) : Except LocatedRefusal α → Prop
  | .ok _ => ∀ q ∈ qs, q.need.Met
  | .error r => Accounts qs r

/-- The form is compiled to the same image, or refused for the same reason. -/
theorem exists_form_eq (hctx : Regular ctx) (e : Expr) :
    ∃ qs, form ctx e = ((Compilation.form ctx e).1.mapError .refused, qs) ∧
      Settles qs (Compilation.form ctx e).1 := by
  have hwhole : Follows (At {} 0)
      (do let env ← formCode ctx e; finish; let b ← build; pure (b, env))
      (Compilation.formCode ctx e)
      fun b r s d => (s.code, r.2) = b ∧ At r.1.returning 0 s d := by
    rw [← bind_pure (Compilation.formCode ctx e)]
    refine (follows_formCode hctx e).bind fun env r _ => ?_
    rintro s d ⟨rfl, hends, hat⟩
    obtain ⟨b, s', hbuild, rfl, hat'⟩ := leads_build hends s d hat
    refine ⟨(s'.code, r.2), s', ?_, rfl, hat'⟩
    rw [← bind_assoc]
    rw [bind_of_ok hbuild]
    rfl
  have hstart : At {} 0 {} {} :=
    ⟨Buffer.shows_empty, rfl, Nat.zero_le _, List.forall_mem_nil _⟩
  have hrun := hwhole _ _ hstart
  unfold form Compilation.form
  rcases hl : Compilation.formCode ctx e {} with ⟨r, d⟩
  rw [hl] at hrun
  cases r with
  | error r =>
    obtain ⟨s, hs, hr⟩ := hrun
    rw [hs]
    exact ⟨s.demands, rfl, hr⟩
  | ok r =>
    obtain ⟨f, env⟩ := r
    obtain ⟨b, s, hs, rfl, hat⟩ := hrun
    rw [hs]
    refine ⟨s.demands, ?_, hat.met⟩
    have hbytes := hat.code.bytes
    have hlocations := hat.code.locations
    obtain rfl := hat.draft
    dsimp only at hbytes hlocations ⊢
    rw [hbytes, hlocations]
    rfl

variable {options : CompileOptions} {env : Environment} {forms : List Expr}

theorem exists_formsFrom_eq (h : options.builtins = .standard) (declared : List (Bytes × Nat))
    (index : Nat) :
    ∃ qs, formsFrom options declared env index forms =
        ((Compilation.formsFrom options declared env index forms).1.mapError .refused, qs) ∧
      Settles qs (Compilation.formsFrom options declared env index forms).1 := by
  induction forms generalizing env index with
  | nil => exact ⟨[], rfl, List.forall_mem_nil _⟩
  | cons e rest ih =>
    have hctx : Regular { options, env, declared, form := index } := ⟨h, nofun⟩
    obtain ⟨qs, hform, hqs⟩ := exists_form_eq hctx e
    rw [formsFrom, Compilation.formsFrom, hform]
    rcases hrun : Compilation.form { options, env, declared, form := index } e with ⟨r, events⟩
    rw [hrun] at hqs
    cases r with
    | error r => exact ⟨qs, rfl, hqs⟩
    | ok r =>
      obtain ⟨img, env'⟩ := r
      obtain ⟨more, hrest, hmore⟩ := @ih env' (index + 1)
      dsimp only [Except.mapError]
      rw [hrest]
      rcases hrun' : Compilation.formsFrom options declared env' (index + 1) rest with ⟨r, events'⟩
      rw [hrun'] at hmore
      cases r with
      | error r => exact ⟨qs ++ more, rfl, Accounts.behind hmore hqs⟩
      | ok c => exact ⟨qs ++ more, rfl, List.forall_mem_append.2 ⟨hqs, hmore⟩⟩

theorem isLimit_declarations {declared : List (Bytes × Nat)} {index : Nat} {r : LocatedRefusal}
    (h : Compilation.declarations env declared index forms = .error r) :
    r.refusal.isLimit = false := by
  induction forms generalizing declared index with
  | nil => cases h
  | cons e rest ih =>
    rw [Compilation.declarations] at h
    split at h
    · exact ih h
    · split at h
      · cases h
        rfl
      · exact ih h

theorem exists_compile_eq (h : options.builtins = .standard) :
    ∃ qs, compile options env forms =
        ((Compilation.compile options env forms).mapError .refused, qs) ∧
      Settles qs (Compilation.compile options env forms) := by
  unfold compile Compilation.compile Compilation.run
  cases hdeclared : Compilation.declarations env [] 0 forms with
  | error r => exact ⟨[], rfl, .other (List.forall_mem_nil _) (isLimit_declarations hdeclared)⟩
  | ok declared => exact exists_formsFrom_eq h declared 0

end Emitter

theorem Refusal.code_ne_badTailPosition (r : Refusal) : r.code ≠ .badTailPosition := by
  unfold code
  split <;> decide

namespace Compilation

/-- Compilation with all checks ends with an image for each form or with a refusal, as compilation
without them does: no operand is missing or too large for its byte, no jump is left without a
target, no argument is asked for that is not there, and no frame is reused outside tail position.
A program is refused because of a limit if and only if it needs more than the limit allows where
compilation stands. Compilation ends there, with the refusal for just this need: a further constant
in a pool that holds 256 others, a slot above 256 others, more than 256 parameters and captured
locals together, more than 255 arguments, parameters or captured locals, or a jump behind the offset
255. The constants of the environment are values of the language, as those in programs are. -/
theorem compile_flawless (options : CompileOptions) (env : Environment) (forms : List Expr)
    (h : options.builtins = .standard) :
    (∃ c qs, Emitter.compile options env forms = (.ok c, qs) ∧
      compile options env forms = .ok c ∧
      (∀ img ∈ c.images, ∀ g ∈ img.functions,
        ∃ is, g.bytes = Instruction.encode is ∧ ∀ i ∈ is, i.Fits) ∧
      ∀ q ∈ qs, q.need.Met) ∨
    (∃ r qs, Emitter.compile options env forms = (.error (.refused r), qs) ∧
      compile options env forms = .error r ∧ r.refusal.code ≠ .badTailPosition ∧
      (r.refusal.isLimit = true ↔ ∃ q ∈ qs, ¬ q.need.Met) ∧ Emitter.Accounts qs r) := by
  obtain ⟨qs, hsame, hqs⟩ : ∃ qs, Emitter.compile options env forms =
      ((compile options env forms).mapError .refused, qs) ∧ _ := Emitter.exists_compile_eq h
  cases hcompile : compile options env forms with
  | error r =>
    rw [hcompile] at hsame hqs
    have haccounts : Emitter.Accounts qs r := hqs
    exact .inr ⟨r, qs, hsame, rfl, r.refusal.code_ne_badTailPosition, haccounts.isLimit_iff,
      haccounts⟩
  | ok c =>
    rw [hcompile] at hsame hqs
    refine .inl ⟨c, qs, hsame, rfl, fun img himg g hg => ?_, hqs⟩
    obtain ⟨k, hk⟩ := List.mem_iff_getElem?.1 himg
    obtain ⟨e, ctx, -, hform⟩ := (compiles_compile hcompile).2 k img hk
    obtain ⟨j, hj⟩ := List.mem_iff_getElem?.1 hg
    obtain ⟨is, hbuilt⟩ := hform.assembled.built hj
    exact ⟨is, hbuilt.code, fun i hi => (hbuilt.sound i hi).fits⟩

/-- A function that loops in tail position, with conditions, shortcuts and a closure. -/
def countdown : Bytes :=
  Text.lit "(define f (lambda (n k) (if (not (and n k)) (lambda () n) (f (- n 1) (+ k 0)))))"

/-- A condition with a first branch that is longer than a jump can pass. -/
def longBranch : Expr :=
  .cond {} (.call {} (.ident {} (Text.lit "list")) [])
    (.block {} (.replicate 300 (.literal {} .unit))) none

theorem countdown_flawless :
    (∃ c qs, Emitter.compile {} {} (Program.read {} countdown).forms = (.ok c, qs) ∧
      ∀ q ∈ qs, q.need.Met) ∧
      ∃ r qs, Emitter.compile {} {} [longBranch] = (.error (.refused r), qs) ∧
        r.refusal = .jumpTooFar 306 .form ∧ Emitter.Accounts qs r := by
  have hloop : (compile {} {} (Program.read {} countdown).forms).isOk = true := by decide +kernel
  have hlong : (compile {} {} [longBranch]).mapError LocatedRefusal.refusal =
      .error (.jumpTooFar 306 .form) := by
    decide +kernel
  constructor
  · rcases compile_flawless {} {} (Program.read {} countdown).forms rfl with
      ⟨c, qs, hc, -, -, hmet⟩ | ⟨r, -, -, hr, -⟩
    · exact ⟨c, qs, hc, hmet⟩
    · rw [hr] at hloop
      cases hloop
  · rcases compile_flawless {} {} [longBranch] rfl with
      ⟨c, -, -, hc, -⟩ | ⟨r, qs, hrun, hr, -, -, haccounts⟩
    · rw [hc] at hlong
      cases hlong
    · rw [hr] at hlong
      exact ⟨r, qs, hrun, Except.error.inj hlong, haccounts⟩

end Compilation
end StackLisp
