import StackLisp.Proofs.Following
import StackLisp.Proofs.Naming

/-! What is written into the buffer for an expression is the piece of code that the expression is
compiled to, wherever it stands. Each construct has a lemma of its own. -/
namespace StackLisp

open Fragment (op instr jumpSize)

theorem Fragment.skipping_append (f g : Fragment) (count : Nat) :
    (f ++ g).skipping count = f ++ g.skipping count := by
  unfold Fragment.skipping
  split
  · rfl
  · exact append_assoc f g _

namespace Lower

/-- A shortcut computes one of the arguments. -/
theorem shortcut?_within {p : Primitive} {known : List (Option Value)} {cut : Shortcut}
    (haccepts : p.arity.accepts known.length = true)
    (h : shortcut? (.ofPrimitive p) known = some cut) : cut.index < known.length := by
  have hpair {x y : Option Int} (hints : known.map (fun v => v.bind Value.toInt?) = [x, y]) :
      known.length = 2 := by
    simpa using congrArg List.length hints
  unfold shortcut? at h
  rw [Builtin.primitive?_ofPrimitive] at h
  dsimp only at h
  split at h
  · next ints hp =>
    cases hp
    cases h
    exact Int.ofNat_le.1 (Arity.accepts_iff.1 haccepts).1
  · next hints =>
    rw [hpair hints]
    unfold sumShortcut at h
    grind [Shortcut.index]
  · next hints =>
    rw [hpair hints]
    unfold differenceShortcut at h
    grind [Shortcut.index]
  · next hints =>
    rw [hpair hints]
    unfold floorDivShortcut at h
    grind [Shortcut.index]
  · cases h

end Lower

namespace Emitter

section
variable {α β δ : Type} {R : State → Draft → Prop} {m : Emitter α} {l : Lower β}
  {Q : α → β → State → Draft → Prop}

theorem Leads.weaken {R' : State → Draft → Prop} {Q : α → State → Draft → Prop} (h : Leads R' m Q)
    (hR : ∀ s d, R s d → R' s d) : Leads R m Q := by
  intro s d hs
  exact h s d (hR s d hs)

/-- What both sides know of a condition decides on both sides. -/
theorem follows_truth {known : Option Value} {m₁ m₂ m₃ : Emitter α} {l₁ l₂ l₃ : Lower β}
    (h₁ : Follows R m₁ l₁ Q) (h₂ : Follows R m₂ l₂ Q) (h₃ : Follows R m₃ l₃ Q) :
    Follows R
      (match known with
        | some (.bool true) => m₁
        | some (.bool false) => m₂
        | _ => m₃)
      (match known with
        | some (.bool true) => l₁
        | some (.bool false) => l₂
        | _ => l₃) Q := by
  rcases known with _ | v
  · exact h₃
  · cases v with
    | bool b =>
      cases b
      · exact h₂
      · exact h₁
    | _ => exact h₃

theorem Follows.map {g : β → δ} {Q' : α → δ → State → Draft → Prop} (h : Follows R m l Q)
    (hQ : ∀ a x s d, Q a x s d → Q' a (g x) s d) : Follows R m (g <$> l) Q' := by
  rw [← bind_pure_comp]
  exact h.result hQ

end

variable {ctx : Context} {pos : Position} {use : Use} {base depth : Nat} {p q f g : Fragment}
  {n : Int} {m : Emitter Unit} {l : Lower Fragment}

/-- Behind the code `p`, `m` writes the piece that `l` gives. -/
def Writes (p : Fragment) (n : Int) (m : Emitter Unit) (l : Lower Fragment) : Prop :=
  Follows (At p n) m l fun _ f => At (p ++ f) n

/-- As `Writes`, for a piece that may be empty. -/
def Appends (p : Fragment) (n : Int) (m : Emitter Unit) (l : Lower Fragment) : Prop :=
  Follows (At p n) m l fun _ f => Past (p ++ f) n

theorem Writes.marked (h : Writes (p.thenMark pos) n m l) :
    Writes p n (do mark pos; m) (Fragment.marked pos <$> l) := by
  refine (leads_mark pos).bind fun _ => Follows.map h fun _ f s d hat => ?_
  rw [Fragment.thenMark_append] at hat
  exact hat

theorem writes_emit {i : Instruction} (h : i.Fits) : Writes p n (emit i) (pure (instr i)) :=
  (leads_emit h).last

theorem writes_load (v : Value) : Writes p n (load ctx pos v) (Lower.load ctx pos v) := by
  have pooled (v : Value) : Writes p n
      (do let i ← intern ctx pos v; emitIndexed .const i)
      (do let i ← Lower.intern ctx pos v; pure (instr (.indexed .const i))) :=
    (enters_value v).bind fun i hi => (leads_emitIndexed hi rfl (by simp)).last
  cases v with
  | unit => exact writes_emit ⟨rfl, by simp⟩
  | bool b => cases b <;> exact writes_emit ⟨rfl, by simp⟩
  | _ => exact pooled _

theorem writes_loadName (hbelow : ctx.frame.Below Limit.slots) (name : Bytes) :
    Writes p n (loadName ctx pos name) (Lower.loadName ctx pos name) := by
  refine (keeps_resolve name).bind fun r hr => ?_
  have byName : Writes p n
      (do let i ← intern ctx pos (.name name); emitIndexed .getDef i)
      (do let i ← Lower.intern ctx pos (.name name); pure (instr (.indexed .getDef i))) :=
    (enters_value _).bind fun i hi => (leads_emitIndexed hi rfl (by simp)).last
  cases r with
  | slot s =>
    have hlt : s < 256 := hbelow.slot (Context.lookup_eq_slot.1 hr.symm)
    exact (leads_emitIndexed hlt rfl (by simp)).last
  | constant v => exact writes_load v
  | _ => exact byName

theorem appends_nothing : Appends p n (pure ()) (pure {}) := by
  refine (leads_pure fun s d hat => ?_).last
  refine ⟨p.landing, ?_⟩
  have hsame : ({ p ++ ({} : Fragment) with landing := p.landing } : Fragment) = p := by
    dsimp only
    rw [Fragment.items_append, List.append_nil]
  rw [hsame]
  exact hat

/-- Whether a jump leads behind the code does not matter for what follows it. -/
theorem leads_past_emit {i : Instruction} (h : i.Fits) :
    Leads (Past f n) (emit i) fun _ => At (f ++ instr i) n := by
  rintro s d ⟨landing, hat⟩
  exact leads_emit (f := { f with landing }) h s d hat

theorem leads_past_emitIndexed {family : Family} {k : Nat} {extra : List Nat} (hk : k < 256)
    (hcount : extra.length = family.extraOperands) (hextra : ∀ o ∈ extra, o < 256) :
    Leads (Past f n) (emitIndexed family k extra) fun _ =>
      At (f ++ instr (.indexed family k extra)) n := by
  rintro s d ⟨landing, hat⟩
  exact leads_emitIndexed (f := { f with landing }) hk hcount hextra s d hat

theorem fits_count {o : Opcode} {count : Nat} (ho : o.operandCount = 1)
    (h : count ≤ Limit.arguments) : (⟨o, [count]⟩ : Instruction).Fits := by
  have hlt : count < 256 := Nat.lt_succ_of_le h
  exact ⟨ho.symm, by simpa using hlt⟩

/-- The form that reuses the frame is written in tail position only. -/
theorem leads_callSelf {direct reusing : Opcode} {argc : Nat} (hargc : argc ≤ Limit.arguments)
    (hdirect : direct ≠ .tailCallSelf ∧ direct ≠ .tailApplySelf)
    (hcount : direct.operandCount = 1 ∧ reusing.operandCount = 1) :
    Leads (Past f n) (callSelf pos use (if use = .tail then reusing else direct) argc) fun _ =>
      At (f ++ op (if use = .tail then reusing else direct) [argc]) n := by
  have hfits : (⟨if use = .tail then reusing else direct, [argc]⟩ : Instruction).Fits := by
    refine fits_count ?_ hargc
    split
    · exact hcount.2
    · exact hcount.1
  have hplace : ¬ (use ≠ .tail ∧ ((if use = .tail then reusing else direct) = .tailCallSelf ∨
      (if use = .tail then reusing else direct) = .tailApplySelf)) := by
    rintro ⟨huse, hop⟩
    rw [if_neg huse] at hop
    exact hop.elim hdirect.1 hdirect.2
  rw [callSelf, if_neg hplace]
  exact leads_past_emit hfits

theorem leads_callBuiltin (b : Builtin) {argc : Nat} (h : argc ≤ Limit.arguments) :
    Leads (Past f n) (callBuiltin b argc) fun _ => At (f ++ Lower.callBuiltin b argc) n := by
  have hid : b.id.toNat < 256 := b.id.toNat_lt
  have hargc : argc < 256 := Nat.lt_succ_of_le h
  unfold callBuiltin Lower.callBuiltin
  split
  · exact leads_past_emit ⟨rfl, by simpa using hid⟩
  · exact leads_past_emit ⟨rfl, by simp [hid, hargc]⟩

/-- The standard system functions are known, and all local names have slots that one byte can
tell. -/
structure Regular (ctx : Context) : Prop where
  builtins : ctx.options.builtins = .standard
  frame : ctx.frame.Below Limit.slots

/-- Wherever the expression stands, what is written for it is the piece that it is compiled to. -/
def Written (e : Expr) : Prop :=
  ∀ {ctx : Context} {use : Use} {base depth : Nat} {p : Fragment} {n : Int}, Regular ctx →
    p.size = base → Writes p n (expr ctx use depth e) (Lower.expr ctx use base depth e)

theorem Written.ends {e : Expr} {d d' : Draft}
    (h : Lower.Yields (Lower.expr ctx use base depth e) d f d') : f.Ends :=
  (Lower.adequate e h).ends rfl

/-- An expression whose value is pushed before something else happens. -/
theorem Written.pushed {α β : Type} {e : Expr} {k : Emitter α} {k' : Fragment → Lower β}
    {Q : α → β → State → Draft → Prop} (he : Written e) (hctx : Regular ctx) (hbase : p.size = base)
    (h : ∀ f, (p ++ f.pushed).size = base + f.pushed.size →
      Follows (At (p ++ f.pushed) n) k (k' f) Q) :
    Follows (At p n) (do expr ctx use depth e; push; k)
      (do let f ← Lower.expr ctx use base depth e; k' f) Q := by
  refine (he hctx hbase).bind fun _ f hf => ?_
  obtain ⟨d, d', hyields⟩ := hf
  have hends : f.Ends := Written.ends hyields
  refine (leads_push (hends.append p)).bind fun _ => ?_
  rw [Fragment.pushed_append p hends]
  exact h f (by rw [Fragment.size_append, hbase])

theorem writes_otherwise {no : Option Expr} (h : ∀ e, no = some e → Written e)
    (hctx : Regular ctx) (hbase : p.size = base) :
    Writes p n (otherwise ctx use depth no) (Lower.otherwise ctx use base depth no) := by
  cases no with
  | none =>
    rw [otherwise, Lower.otherwise]
    exact writes_emit ⟨rfl, by simp⟩
  | some e =>
    rw [otherwise, Lower.otherwise]
    exact h e rfl hctx hbase

theorem writes_sequence {es : List Expr} (h : ∀ e ∈ es, Written e) (hctx : Regular ctx)
    (hbase : p.size = base) :
    Writes p n (sequence ctx use depth es) (Lower.sequence ctx use base depth es) := by
  induction es generalizing p base with
  | nil =>
    rw [sequence, Lower.sequence]
    exact writes_emit ⟨rfl, by simp⟩
  | cons e rest ih =>
    obtain ⟨he, hrest⟩ := List.forall_mem_cons.1 h
    cases rest with
    | nil =>
      rw [sequence, Lower.sequence]
      exact he hctx hbase
    | cons e' rest =>
      rw [sequence, Lower.sequence]
      · refine (he hctx hbase).bind fun _ f _ => ?_
        have hsize : (p ++ f).size = base + f.size := by rw [Fragment.size_append, hbase]
        refine (ih hrest hsize).result fun _ g s d hat => ?_
        rw [Fragment.append_assoc] at hat
        exact hat
      · simp
      · simp

theorem appends_arguments {es : List Expr} (h : ∀ e ∈ es, Written e) (hctx : Regular ctx)
    (hbase : p.size = base) :
    Appends p n (arguments ctx depth es) (Lower.arguments ctx base depth es) := by
  induction es generalizing p base depth with
  | nil =>
    rw [arguments, Lower.arguments]
    exact appends_nothing
  | cons e rest ih =>
    obtain ⟨he, hrest⟩ := List.forall_mem_cons.1 h
    rw [arguments, Lower.arguments]
    refine he.pushed hctx hbase fun f hsize => ?_
    refine (ih hrest hsize).result fun _ g s d hpast => ?_
    rw [Fragment.append_assoc] at hpast
    exact hpast

theorem writes_spread {es : List Expr} (hne : es ≠ []) (h : ∀ e ∈ es, Written e)
    (hctx : Regular ctx) (hbase : p.size = base) :
    Writes p n (spread ctx depth es) (Lower.spread ctx base depth es) := by
  induction es generalizing p base depth with
  | nil => exact absurd rfl hne
  | cons e rest ih =>
    obtain ⟨he, hrest⟩ := List.forall_mem_cons.1 h
    cases rest with
    | nil =>
      rw [spread, Lower.spread]
      exact he hctx hbase
    | cons e' rest =>
      rw [spread, Lower.spread]
      · refine he.pushed hctx hbase fun f hsize => ?_
        refine (ih (by simp) hrest hsize).result fun _ g s d hat => ?_
        rw [Fragment.append_assoc] at hat
        exact hat
      · simp
      · simp

theorem writes_operandAt {es : List Expr} {i : Nat} (hi : i < es.length)
    (h : ∀ e ∈ es, Written e) (hctx : Regular ctx) (hbase : p.size = base) :
    Writes p n (operandAt ctx use depth i es) (Lower.operandAt ctx use base depth i es) := by
  induction es generalizing i with
  | nil => exact absurd hi (Nat.not_lt_zero i)
  | cons e rest ih =>
    obtain ⟨he, hrest⟩ := List.forall_mem_cons.1 h
    cases i with
    | zero =>
      rw [operandAt, Lower.operandAt]
      exact he hctx hbase
    | succ i =>
      rw [operandAt, Lower.operandAt]
      exact ih (Nat.lt_of_succ_lt_succ hi) hrest

theorem appends_values {bs : List (Binding Expr)} (h : ∀ b ∈ bs, Written b.value)
    (hctx : Regular ctx) (hbase : p.size = base) :
    Appends p n (values ctx depth bs) (Lower.values ctx base depth bs) := by
  induction bs generalizing p base depth with
  | nil =>
    rw [values, Lower.values]
    exact appends_nothing
  | cons b rest ih =>
    obtain ⟨name, pos, e⟩ := b
    obtain ⟨he, hrest⟩ := List.forall_mem_cons.1 h
    rw [values, Lower.values]
    refine follows_demand Nat.not_lt.symm (fun _ => rfl) fun _ => ?_
    refine Written.pushed he hctx hbase fun f hsize => ?_
    refine (ih hrest hsize).result fun _ g s d hpast => ?_
    rw [Fragment.append_assoc] at hpast
    exact hpast

/-! ### Operands with jumps to their end -/

/-- The positions of the operands of the jumps behind all pieces but the last. -/
def jumpPlaces : Nat → List Fragment → List Nat
  | _, [] => []
  | _, [_] => []
  | base, f :: rest => (base + f.size + 1) :: jumpPlaces (base + f.size + jumpSize) rest

theorem jumpPlaces_cons (base : Nat) (f : Fragment) {fs : List Fragment} (h : fs ≠ []) :
    jumpPlaces base (f :: fs) =
      (base + f.size + 1) :: jumpPlaces (base + f.size + jumpSize) fs := by
  obtain ⟨g, rest, rfl⟩ := List.exists_cons_of_ne_nil h
  rfl

theorem withJumps_cons (branch : Opcode) (target : Nat) (f : Fragment) {fs : List Fragment}
    (h : fs ≠ []) :
    Lower.withJumps branch target (f :: fs) =
      f ++ op branch [target] ++ Lower.withJumps branch target fs := by
  obtain ⟨g, rest, rfl⟩ := List.exists_cons_of_ne_nil h
  rfl

theorem sizeWithJumps_cons (f : Fragment) {fs : List Fragment} (h : fs ≠ []) :
    Lower.sizeWithJumps (f :: fs) = f.size + jumpSize + Lower.sizeWithJumps fs := by
  obtain ⟨g, rest, rfl⟩ := List.exists_cons_of_ne_nil h
  rfl

theorem follows_operands {es : List Expr} {branch : Opcode} (hne : es ≠ [])
    (hbranch : branch.operandCount = 1) (h : ∀ e ∈ es, Written e) (hctx : Regular ctx)
    (hbase : p.size = base) :
    Follows (At p n) (operands ctx use depth branch es) (Lower.operands ctx use base depth es)
      fun jumps fs s d => jumps = jumpPlaces base fs ∧
        At (p ++ Lower.withJumps branch 0 fs) (n + jumps.length) s d := by
  induction es generalizing p base n with
  | nil => exact absurd rfl hne
  | cons e rest ih =>
    obtain ⟨he, hrest⟩ := List.forall_mem_cons.1 h
    cases rest with
    | nil =>
      rw [operands, Lower.operands]
      refine (he hctx hbase).bind fun _ f _ => (leads_pure fun s d hat => ?_).last
      refine ⟨rfl, ?_⟩
      rw [List.length_nil, Int.ofNat_zero, Int.add_zero]
      exact hat
    | cons e' rest =>
      rw [operands, Lower.operands]
      · refine (he hctx hbase).bind fun _ f _ => follows_jump hbranch ?_
        have hsize : (p ++ f ++ op branch [0]).size = base + f.size + jumpSize := by
          rw [Fragment.size_append, Fragment.size_append, Fragment.size_jump, hbase]
        refine (ih (by simp) hrest hsize).bind fun jumps fs hfs => ?_
        obtain ⟨d₀, d₁, hyields⟩ := hfs
        have hfs : fs ≠ [] := Lower.operands_ne_nil (by simp) hyields
        refine (leads_pure fun s d hs => ?_).last
        obtain ⟨rfl, hat⟩ := hs
        refine ⟨?_, ?_⟩
        · rw [jumpPlaces_cons base f hfs, Fragment.size_append, hbase]
        · rw [withJumps_cons branch 0 f hfs, ← Fragment.append_assoc, ← Fragment.append_assoc]
          rw [List.length_cons, Int.natCast_succ, Int.add_comm _ 1, ← Int.add_assoc]
          exact hat
      · simp
      · simp

/-- The first jump gets its target. -/
theorem follows_firstLabel {branch : Opcode} {target : Nat} {fs : List Fragment} (hfs : fs ≠ [])
    (hbase : p.size = base) (hsize : base + Lower.sizeWithJumps (f :: fs) = target)
    (landing : Bool) :
    Follows (At { p ++ Lower.withJumps branch 0 (f :: fs) with landing } (n + 1))
      (label ctx pos (base + f.size + 1)) (Lower.checkTarget ctx pos target) fun _ _ =>
        At (p ++ f ++ op branch [target] ++ Lower.withJumps branch 0 fs).landed n := by
  have hfront : (p ++ f).size = base + f.size := by rw [Fragment.size_append, hbase]
  have hsplit := sizeWithJumps_cons f hfs
  have hwhole : (p ++ f ++ op branch [0] ++
      { Lower.withJumps branch 0 fs with landing }).size = target := by
    have hlast : ({ Lower.withJumps branch 0 fs with landing } : Fragment).size =
        Lower.sizeWithJumps fs := Lower.size_withJumps branch 0 fs
    rw [Fragment.size_append, Fragment.size_append, Fragment.size_jump, hfront, hlast]
    omega
  have hlabel : Follows _ (label ctx pos _) _ _ := follows_label (n := n + 1) hwhole
  rw [hfront, Int.add_sub_cancel] at hlabel
  rw [withJumps_cons branch 0 f hfs, ← Fragment.append_assoc, ← Fragment.append_assoc]
  exact hlabel

/-- All jumps get the same target. -/
theorem leads_labels {branch : Opcode} {target : Nat} {fs : List Fragment} (hbase : p.size = base)
    (hsize : base + Lower.sizeWithJumps fs = target) (h : target ≤ Limit.target) :
    Leads (At (p ++ Lower.withJumps branch 0 fs).landed (n + (jumpPlaces base fs).length))
      ((jumpPlaces base fs).forM (label ctx pos)) fun _ =>
        At (p ++ Lower.withJumps branch target fs).landed n := by
  induction fs generalizing p base with
  | nil =>
    refine leads_pure fun s d hat => ?_
    rwa [jumpPlaces, List.length_nil, Int.ofNat_zero, Int.add_zero] at hat
  | cons f rest ih =>
    by_cases hrest : rest = []
    · subst hrest
      refine leads_pure fun s d hat => ?_
      rwa [jumpPlaces, List.length_nil, Int.ofNat_zero, Int.add_zero] at hat
    · have hnext : (p ++ f ++ op branch [target]).size = base + f.size + jumpSize := by
        rw [Fragment.size_append, Fragment.size_append, Fragment.size_jump, hbase]
      have hsplit := sizeWithJumps_cons f hrest
      have hlabel : Follows (At (p ++ Lower.withJumps branch 0 (f :: rest)).landed _)
          (label ctx pos _) _ _ :=
        follows_firstLabel (n := n + (jumpPlaces (base + f.size + jumpSize) rest).length) hrest
          hbase hsize true
      rw [Lower.checkTarget, if_neg (Nat.not_lt.2 h)] at hlabel
      rw [jumpPlaces_cons base f hrest, withJumps_cons branch target f hrest,
        ← Fragment.append_assoc, ← Fragment.append_assoc, List.length_cons, Int.natCast_succ,
        ← Int.add_assoc]
      exact Leads.andThen hlabel fun _ => ih hnext (by omega)

/-- Where there are several operands, they end with the target of all their jumps. -/
theorem writes_joined {es : List Expr} {branch : Opcode} (hne : es ≠ [])
    (hbranch : branch.operandCount = 1) (h : ∀ e ∈ es, Written e) (hctx : Regular ctx)
    (hbase : p.size = base) :
    Writes p n
      (do let jumps ← operands ctx use depth branch es; jumps.forM (label ctx pos))
      (do
        let fs ← Lower.operands ctx use base depth es
        Lower.joinOperands ctx pos branch base fs) := by
  refine (follows_operands hne hbranch h hctx hbase).bind fun jumps fs hfs => ?_
  obtain ⟨d₀, d₁, hyields⟩ := hfs
  have hsome : fs ≠ [] := Lower.operands_ne_nil hne hyields
  obtain ⟨f, rest, rfl⟩ := List.exists_cons_of_ne_nil hsome
  by_cases hrest : rest = []
  · subst hrest
    rintro s d ⟨rfl, hat⟩
    refine ⟨⟨⟩, s, rfl, ?_⟩
    rwa [jumpPlaces, List.length_nil, Int.ofNat_zero, Int.add_zero] at hat
  · generalize htarget : base + Lower.sizeWithJumps (f :: rest) = target
    have hjoin : Lower.joinOperands ctx pos branch base (f :: rest) = (do
        Lower.checkTarget ctx pos target
        pure (Lower.withJumps branch target (f :: rest)).landed) := by
      obtain ⟨g, more, rfl⟩ := List.exists_cons_of_ne_nil hrest
      rw [← htarget]
      rfl
    have hnext : (p ++ f ++ op branch [target]).size = base + f.size + jumpSize := by
      rw [Fragment.size_append, Fragment.size_append, Fragment.size_jump, hbase]
    have hsplit := sizeWithJumps_cons f hrest
    rw [hjoin]
    rintro s d ⟨rfl, hat⟩
    rw [jumpPlaces_cons base f hrest, List.length_cons, Int.natCast_succ, ← Int.add_assoc] at hat
    rw [jumpPlaces_cons base f hrest]
    refine (follows_firstLabel hrest hbase htarget _).bind (fun _ _ hcheck => ?_) s d hat
    obtain ⟨_, _, hcheck⟩ := hcheck
    have hfits := (Lower.yields_checkTarget.1 hcheck).1
    have hwhole : p ++ (Lower.withJumps branch target (f :: rest)).landed =
        (p ++ f ++ op branch [target] ++ Lower.withJumps branch target rest).landed := by
      rw [withJumps_cons branch target f hrest, Fragment.append_assoc, Fragment.append_assoc,
        Fragment.append_assoc]
      rfl
    refine Leads.last ?_
    rw [hwhole]
    exact leads_labels hnext (by omega) hfits

/-! ### Expressions -/

theorem mapM_evaluate (hctx : Regular ctx) (args : List Expr) :
    (args.mapM fun e => e.evaluate ctx) = .ok (args.map fun e => e.fold? ctx) := by
  induction args with
  | nil => rfl
  | cons e args ih =>
    rw [List.mapM_cons, Expr.evaluate_eq hctx.builtins, ih]
    rfl

theorem written_call {fn : Expr} {args : List Expr} (hfn : Written fn)
    (hargs : ∀ e ∈ args, Written e) : Written (.call pos fn args) := by
  intro ctx use base depth p n hctx hbase
  rw [expr, Lower.expr]
  split
  · next hneg =>
    have hone := Lower.isNegation_argc hneg.2
    exact writes_operandAt (by omega) hargs hctx hbase
  refine Writes.marked ?_
  have hbase : (p.thenMark pos).size = base := (p.size_thenMark pos).trans hbase
  generalize p.thenMark pos = p at hbase ⊢
  refine follows_demand Nat.not_le.symm (fun _ => rfl) fun hargc => ?_
  refine (keeps_callee hctx.builtins fn).bind fun c hc => ?_
  cases c with
  | self =>
    refine follows_unless rfl fun _ => ?_
    refine (appends_arguments hargs hctx hbase).bind fun _ a _ => Leads.last ?_
    rw [← Fragment.append_assoc]
    exact leads_callSelf hargc ⟨by decide, by decide⟩ ⟨rfl, rfl⟩
  | named v =>
    refine (keeps_checkArity v _).bind fun _ _ => ?_
    refine (enters_value v).bind fun i hi => ?_
    refine (appends_arguments hargs hctx hbase).bind fun _ a _ => Leads.last ?_
    rw [← Fragment.append_assoc]
    have hlt : args.length < 256 := Nat.lt_succ_of_le hargc
    exact leads_past_emitIndexed hi rfl (by simpa using hlt)
  | builtin b =>
    obtain ⟨prim, rfl⟩ := hc b rfl
    refine follows_unless rfl fun haccepts => ?_
    refine follows_given (Expr.evaluate_eq hctx.builtins _) ?_
    cases (Expr.call pos fn args).fold? ctx with
    | some v => exact writes_load v
    | none =>
      refine follows_given (mapM_evaluate hctx args) ?_
      cases hcut : Lower.shortcut? (.ofPrimitive prim) (args.map fun e => e.fold? ctx) with
      | none =>
        refine (appends_arguments hargs hctx hbase).bind fun _ a _ => Leads.last ?_
        rw [← Fragment.append_assoc]
        exact leads_callBuiltin _ hargc
      | some cut =>
        have hwithin : cut.index < args.length := by
          have haccepts : (Builtin.ofPrimitive prim).arity.accepts args.length = true := by
            simpa using haccepts
          have hknown := Lower.shortcut?_within (by rw [List.length_map]; exact haccepts) hcut
          rwa [List.length_map] at hknown
        cases cut with
        | operand i => exact writes_operandAt hwithin hargs hctx hbase
        | unary b i =>
          refine (writes_operandAt hwithin hargs hctx hbase).bind fun _ f hf => ?_
          obtain ⟨d, d', hyields⟩ := hf
          have hends : f.Ends := (Lower.emits_operandAt (fun e _ => Lower.adequate e) hyields).ends rfl
          refine (leads_push (hends.append p)).bind fun _ => Leads.last ?_
          rw [Fragment.pushed_append p hends, ← Fragment.append_assoc]
          exact (leads_callBuiltin b (by decide)).weaken fun s d hat => hat.past
        | step o i =>
          refine (writes_operandAt hwithin hargs hctx hbase).bind fun _ f _ => Leads.last ?_
          rw [← Fragment.append_assoc]
          rcases Lower.shortcut?_step hcut with rfl | rfl <;> exact leads_emit ⟨rfl, by simp⟩
  | computed =>
    refine hfn.pushed hctx hbase fun f hsize => ?_
    refine (appends_arguments hargs hctx hsize).bind fun _ a _ => Leads.last ?_
    rw [← Fragment.append_assoc, ← Fragment.append_assoc]
    exact leads_past_emit (fits_count rfl hargc)

theorem written_apply {fn : Expr} {args : List Expr} (hfn : Written fn)
    (hargs : ∀ e ∈ args, Written e) : Written (.apply pos fn args) := by
  intro ctx use base depth p n hctx hbase
  rw [expr, Lower.expr]
  refine Writes.marked ?_
  have hbase : (p.thenMark pos).size = base := (p.size_thenMark pos).trans hbase
  generalize p.thenMark pos = p at hbase ⊢
  refine follows_unless rfl fun hempty => ?_
  have hne : args ≠ [] := by simpa using hempty
  refine follows_demand Nat.not_le.symm (fun _ => rfl) fun hleading => ?_
  refine (keeps_callee hctx.builtins fn).bind fun c _ => ?_
  have computed : Follows (At p n)
      (do
        expr ctx .value depth fn
        push
        spread ctx (depth + 1) args
        emit ⟨.apply, [args.length - 1]⟩)
      (do
        let f ← Lower.expr ctx .value base depth fn
        let a ← Lower.spread ctx (base + f.pushed.size) (depth + 1) args
        pure (f.pushed ++ a ++ op .apply [args.length - 1])) fun _ f => At (p ++ f) n := by
    refine hfn.pushed hctx hbase fun f hsize => ?_
    refine (writes_spread hne hargs hctx hsize).bind fun _ a _ => Leads.last ?_
    rw [← Fragment.append_assoc, ← Fragment.append_assoc]
    exact leads_emit (fits_count rfl hleading)
  cases c with
  | self =>
    refine follows_unless rfl fun _ => ?_
    refine (writes_spread hne hargs hctx hbase).bind fun _ a _ => Leads.last ?_
    rw [← Fragment.append_assoc]
    refine Leads.weaken ?_ fun s d hat => hat.past
    exact leads_callSelf hleading ⟨by decide, by decide⟩ ⟨rfl, rfl⟩
  | _ => exact computed

section
variable {test yes : Expr} {no : Option Expr} {branch : Opcode}

/-- In tail position the first branch returns. -/
theorem writes_condTail (htest : Written test) (hyes : Written yes)
    (hno : ∀ e, no = some e → Written e) (hctx : Regular ctx) (hbranch : branch.operandCount = 1)
    (hbase : p.size = base) :
    Writes p n
      (do
        expr ctx .test depth test
        let toElse ← emitJump branch
        expr ctx .tail depth yes
        finish
        label ctx pos toElse
        otherwise ctx .tail depth no)
      (do
        let t ← Lower.expr ctx .test base depth test
        let y ← Lower.expr ctx .tail (base + t.size + jumpSize) depth yes
        Lower.checkTarget ctx pos (base + t.size + jumpSize + y.returning.size)
        let n ← Lower.otherwise ctx .tail (base + t.size + jumpSize + y.returning.size) depth no
        pure (t ++ op branch [base + t.size + jumpSize + y.returning.size] ++ y.returning
          ++ n)) := by
  refine (htest hctx hbase).bind fun _ t _ => follows_jump hbranch ?_
  have hjump (target : Nat) : (p ++ t ++ op branch [target]).size = base + t.size + jumpSize := by
    rw [Fragment.size_append, Fragment.size_append, Fragment.size_jump, hbase]
  refine (hyes hctx (hjump 0)).bind fun _ y hy => ?_
  obtain ⟨_, _, hyields⟩ := hy
  have hends : y.Ends := Written.ends hyields
  refine (leads_finish (hends.append _)).bind fun _ => ?_
  rw [Fragment.returning_append _ hends]
  generalize htarget : base + t.size + jumpSize + y.returning.size = target
  have hsize (t' : Nat) : (p ++ t ++ op branch [t'] ++ y.returning).size = target := by
    rw [Fragment.size_append, hjump, htarget]
  refine (follows_label (hsize 0)).bind fun _ _ _ => ?_
  rw [Int.add_sub_cancel]
  have hlanded := (Fragment.size_landed _).trans (hsize target)
  refine (writes_otherwise hno hctx hlanded).result fun _ n s d hat => ?_
  rw [Fragment.landed_append] at hat
  simp only [Fragment.append_assoc] at hat ⊢
  exact hat

/-- Otherwise both branches lead to the end. -/
theorem writes_condValue (htest : Written test) (hyes : Written yes)
    (hno : ∀ e, no = some e → Written e) (hctx : Regular ctx) (hbranch : branch.operandCount = 1)
    (hbase : p.size = base) :
    Writes p n
      (do
        expr ctx .test depth test
        let toElse ← emitJump branch
        expr ctx .value depth yes
        let toEnd ← emitJump .jump
        label ctx pos toElse
        otherwise ctx .value depth no
        label ctx pos toEnd)
      (do
        let t ← Lower.expr ctx .test base depth test
        let y ← Lower.expr ctx .value (base + t.size + jumpSize) depth yes
        Lower.checkTarget ctx pos (base + t.size + jumpSize + y.size + jumpSize)
        let n ← Lower.otherwise ctx .value (base + t.size + jumpSize + y.size + jumpSize) depth no
        Lower.checkTarget ctx pos (base + t.size + jumpSize + y.size + jumpSize + n.size)
        pure (t ++ op branch [base + t.size + jumpSize + y.size + jumpSize] ++ y
          ++ op .jump [base + t.size + jumpSize + y.size + jumpSize + n.size] ++ n).landed) := by
  refine (htest hctx hbase).bind fun _ t _ => follows_jump hbranch ?_
  have hjump (target : Nat) : (p ++ t ++ op branch [target]).size = base + t.size + jumpSize := by
    rw [Fragment.size_append, Fragment.size_append, Fragment.size_jump, hbase]
  refine (hyes hctx (hjump 0)).bind fun _ y _ => follows_jump rfl ?_
  generalize htarget : base + t.size + jumpSize + y.size + jumpSize = target
  have hyes (t' : Nat) : (p ++ t ++ op branch [t'] ++ y).size = base + t.size + jumpSize + y.size := by
    rw [Fragment.size_append, hjump]
  have hsize (t' : Nat) : (p ++ t ++ op branch [t'] ++ (y ++ op .jump [0])).size = target := by
    rw [← Fragment.append_assoc, Fragment.size_append, Fragment.size_jump, hyes, htarget]
  rw [Fragment.append_assoc _ y]
  refine (follows_label (hsize 0)).bind fun _ _ _ => ?_
  have hlanded := (Fragment.size_landed _).trans (hsize target)
  refine (writes_otherwise hno hctx hlanded).bind fun _ no _ => ?_
  rw [Fragment.landed_append, ← Fragment.append_assoc _ y, hyes 0, ← hyes target]
  have hwhole : (p ++ t ++ op branch [target] ++ y ++ op .jump [0] ++ no).size =
      target + no.size := by
    rw [Fragment.append_assoc _ y, Fragment.size_append, hsize target]
  refine (follows_label hwhole).result fun _ _ s d hat => ?_
  rw [Int.add_sub_cancel, Int.add_sub_cancel] at hat
  simp only [Fragment.append_assoc] at hat ⊢
  exact hat

end

theorem written_cond {test yes : Expr} {no : Option Expr} (htest : Written test)
    (hyes : Written yes) (hno : ∀ e, no = some e → Written e) :
    Written (.cond pos test yes no) := by
  intro ctx use base depth p n hctx hbase
  rw [expr, Lower.expr]
  refine Writes.marked ?_
  have hbase : (p.thenMark pos).size = base := (p.size_thenMark pos).trans hbase
  generalize p.thenMark pos = p at hbase ⊢
  refine follows_given (Expr.evaluate_eq hctx.builtins test) ?_
  refine follows_truth (hyes hctx hbase) (writes_otherwise hno hctx hbase) ?_
  generalize hbranch : (if Lower.negated ctx test then Opcode.jumpIf else .jumpIfNot) = branch
  have hcount : branch.operandCount = 1 := by
    rw [← hbranch]
    split <;> rfl
  cases use with
  | tail => exact writes_condTail htest hyes hno hctx hcount hbase
  | value | test => exact writes_condValue htest hyes hno hctx hcount hbase

theorem written_letIn {bindings : List (Binding Expr)} {body : List Expr}
    (hbs : ∀ b ∈ bindings, Written b.value) (hbody : ∀ e ∈ body, Written e) :
    Written (.letIn pos bindings body) := by
  intro ctx use base depth p n hctx hbase
  rw [expr, Lower.expr]
  refine Writes.marked ?_
  have hbase : (p.thenMark pos).size = base := (p.size_thenMark pos).trans hbase
  generalize p.thenMark pos = p at hbase ⊢
  refine (appends_values hbs hctx hbase).bind fun _ v hv => Follows.past fun landing => ?_
  obtain ⟨_, _, hyields⟩ := hv
  have hvalues := Lower.emits_values (fun b _ => Lower.adequate b.value) hyields
  have hinner : Regular (ctx.bind depth (bindings.map Binding.name)) :=
    ⟨hctx.builtins, hvalues.frame_below hctx.frame⟩
  have hsize : ({ p ++ v with landing } : Fragment).size = base + v.size := by
    rw [← hbase]
    exact Fragment.size_append p v
  refine Keeps.bind (keeps_modify ?_) fun _ _ => ?_
  · intro d
    rfl
  refine (writes_sequence hbody hinner hsize).bind fun _ b _ => Leads.last ?_
  change Leads (At (p ++ v ++ b) n) _ _
  split
  · rw [← Fragment.append_assoc]
    exact leads_pure fun s d hat => hat
  · rw [← Fragment.skipping_append, ← Fragment.append_assoc]
    exact leads_skip _

/-- The code of a function is complete when all its jumps have their targets. -/
theorem leads_build (h : f.Ends) :
    Leads (At f 0) (do finish; build) fun b s d => s.code = b ∧ At f.returning 0 s d := by
  refine (leads_finish h).andThen fun _ s d hat => ?_
  refine ⟨s.code, s, ?_, rfl, hat⟩
  have hpending : ¬ s.code.pending ≠ 0 := not_not_intro hat.code.pending
  change (if s.code.pending ≠ 0 then _ else _ : Emitter Buffer) s = _
  rw [if_neg hpending]
  rfl

/-- A function is written into a buffer of its own. -/
theorem follows_isolated {slots : List Bytes} {body : Emitter Unit} {l : Lower Fragment}
    (h : Writes (Fragment.thenMark {} pos) 0 body l)
    (hends : ∀ f d d', Lower.Yields l d f d' → f.Ends) :
    Follows (At p n) (isolated slots do mark pos; body) (Lower.isolated slots l)
      fun b f s d => (b.1.bytes = (f.1.marked pos).returning.code ∧
        b.1.locations = (f.1.marked pos).returning.locations ∧ b.2 = f.2) ∧ At p n s d := by
  have hmarked : Follows (At {} 0) (do mark pos; body) l fun _ f => At (f.marked pos) 0 :=
    (leads_mark pos).bind fun _ => h
  have hwhole : Follows (At {} 0) (do (do mark pos; body); finish; build) l fun b f s d =>
      s.code = b ∧ At (f.marked pos).returning 0 s d := by
    rw [← bind_pure l]
    refine hmarked.bind fun _ f hf => Leads.last ?_
    obtain ⟨d, d', hyields⟩ := hf
    exact leads_build ((hends f d d' hyields).marked pos)
  intro s d hat
  have hstart : At {} 0
      { draft := { slots, functions := s.draft.functions }, demands := s.demands }
      { slots, functions := s.draft.functions } :=
    ⟨Buffer.shows_empty, rfl, Nat.zero_le _, hat.met⟩
  have hrun := hwhole _ _ hstart
  obtain rfl := hat.draft
  unfold isolated Lower.isolated
  rcases hl : l { slots, functions := s.draft.functions } with ⟨r, d'⟩
  cases r with
  | error r =>
    rw [hl] at hrun
    obtain ⟨s', hs', hr⟩ := hrun
    refine ⟨_, by rw [hs'], ?_⟩
    exact hr
  | ok f =>
    rw [hl] at hrun
    obtain ⟨b, s', hs', rfl, hat'⟩ := hrun
    refine ⟨(s'.code, s'.draft), _, by rw [hs'], ⟨?_, ?_, ?_⟩, ?_⟩
    · exact hat'.code.bytes
    · exact hat'.code.locations
    · exact hat'.draft
    · obtain rfl := hat'.draft
      exact ⟨hat.code, rfl, hat.pool, hat'.met⟩

theorem pushed_load (slot : Nat) :
    (instr (.indexed .load slot)).pushed = instr (.indexed .loadPush slot) := by
  by_cases h : slot < 8 <;>
    simp [Instruction.indexed, h, Fragment.pushed, instr, Fragment.pushLast, Opcode.pushForm,
      Family.pushForm]

theorem leads_captures {captured : List (Bytes × Nat)} (h : ∀ c ∈ captured, c.2 < Limit.slots) :
    Leads (Past f n) (captures captured) fun _ => Past (f ++ Lower.captureLoads captured) n := by
  induction captured generalizing f with
  | nil =>
    refine leads_pure fun s d hpast => ?_
    obtain ⟨landing, hat⟩ := hpast
    refine ⟨landing, ?_⟩
    have hsame : (f ++ Lower.captureLoads []).items = f.items := List.append_nil _
    rw [hsame]
    exact hat
  | cons c rest ih =>
    obtain ⟨hc, hrest⟩ := List.forall_mem_cons.1 h
    have hends : (instr (.indexed .load c.2)).Ends := Fragment.ends_instr _
    refine (leads_past_emitIndexed hc rfl (by simp)).andThen fun _ => ?_
    refine (leads_push (hends.append f)).andThen fun _ => ?_
    rw [Fragment.pushed_append f hends, pushed_load]
    have hloads : f ++ Lower.captureLoads (c :: rest) =
        f ++ instr (.indexed .loadPush c.2) ++ Lower.captureLoads rest := by
      rw [Fragment.append_assoc]
      rfl
    rw [hloads]
    exact (ih hrest).weaken fun s d hat => hat.past

theorem writes_function {name : Bytes} {params free : List Bytes} {body : List Expr}
    (hbody : ∀ e ∈ body, Written e) (hctx : Regular ctx) :
    Writes p n
      (function ctx pos name params free fun inner slots => sequence inner .tail slots body)
      (Lower.function ctx pos name params free fun inner slots =>
        Lower.sequence inner .tail 0 slots body) := by
  unfold function Lower.function
  cases Lower.firstRepeated? [] params with
  | some repeated =>
    have hother : (Refusal.duplicateParameter repeated).isLimit = false := rfl
    exact follows_refused hother
  | none =>
    generalize hcaptured : Lower.capturedBy ctx name free = captured
    have hslots : ∀ c ∈ captured, c.2 < Limit.slots := by
      intro c hc
      rw [← hcaptured] at hc
      exact hctx.frame.slot (Lower.mem_capturedBy.1 hc).2.2
    refine follows_checkFunction fun hcaptures hlocals => ?_
    have hinner : Regular (ctx.enter name params (captured.map Prod.fst)) :=
      ⟨hctx.builtins, (Frame.below_ofFunction name params _).mono hlocals⟩
    have hsequence : Writes (Fragment.thenMark {} pos) 0
        (sequence (ctx.enter name params (captured.map Prod.fst)) .tail
          (params.length + (captured.map Prod.fst).length) body) _ :=
      writes_sequence hbody hinner rfl
    refine (follows_isolated hsequence fun f d d' hyields => ?_).bind fun b f _ => ?_
    · exact (Lower.emits_sequence (fun e _ => Lower.adequate e) hyields).ends rfl
    obtain ⟨b, d₁⟩ := b
    obtain ⟨f, d₂⟩ := f
    rintro s d ⟨⟨hbytes, hlocations, rfl⟩, hat⟩
    suffices hrest : Follows (At p n) _ _ _ from hrest s d hat
    dsimp only at hbytes hlocations ⊢
    rw [hbytes, hlocations]
    refine (keeps_complete _).bind fun place _ => ?_
    refine (enters_function _).bind fun i hi => ?_
    split
    · exact (leads_emitIndexed hi rfl (by simp)).last
    · refine Leads.last ?_
      refine Leads.weaken ((leads_captures hslots).andThen fun _ => ?_) fun s d hat => hat.past
      have hcount : captured.length < 256 := by
        rw [List.length_map] at hcaptures
        exact Nat.lt_succ_of_le hcaptures
      have hfits : (⟨.buildClosure, [i, captured.length]⟩ : Instruction).Fits :=
        ⟨rfl, by simp [hi, hcount]⟩
      have hwhole := leads_past_emit (f := p ++ Lower.captureLoads captured) (n := n) hfits
      rw [Fragment.append_assoc] at hwhole
      exact hwhole

/-- What is written for an expression is the piece that it is compiled to. -/
theorem written (e : Expr) : Written e := by
  induction e using Expr.induction with
  | literal pos v =>
    intro ctx use base depth p n hctx hbase
    rw [expr_literal, Lower.expr_literal]
    exact (writes_load v).marked
  | ident pos name =>
    intro ctx use base depth p n hctx hbase
    rw [expr, Lower.expr]
    exact (writes_loadName hctx.frame name).marked
  | call pos fn args hfn hargs => exact written_call hfn hargs
  | cond pos test yes no htest hyes hno => exact written_cond htest hyes hno
  | lambda pos name params body hbody =>
    intro ctx use base depth p n hctx hbase
    rw [expr, Lower.expr]
    exact (writes_function hbody hctx).marked
  | define pos name value _ =>
    intro ctx use base depth p n hctx hbase
    rw [expr, Lower.expr]
    exact follows_refuse rfl
  | const pos name value _ =>
    intro ctx use base depth p n hctx hbase
    rw [expr, Lower.expr]
    exact follows_refuse rfl
  | letIn pos bindings body hbs hbody => exact written_letIn hbs hbody
  | block pos body hbody =>
    intro ctx use base depth p n hctx hbase
    rw [expr, Lower.expr]
    exact (writes_sequence hbody hctx ((p.size_thenMark pos).trans hbase)).marked
  | and pos es hes =>
    intro ctx use base depth p n hctx hbase
    rw [expr, Lower.expr]
    refine Writes.marked ?_
    split
    · exact writes_emit ⟨rfl, by simp⟩
    · next hne =>
      have hne : es ≠ [] := fun h => hne (List.isEmpty_iff.2 h)
      exact writes_joined hne rfl hes hctx ((p.size_thenMark pos).trans hbase)
  | or pos es hes =>
    intro ctx use base depth p n hctx hbase
    rw [expr, Lower.expr]
    refine Writes.marked ?_
    split
    · exact writes_emit ⟨rfl, by simp⟩
    · next hne =>
      have hne : es ≠ [] := fun h => hne (List.isEmpty_iff.2 h)
      exact writes_joined hne rfl hes hctx ((p.size_thenMark pos).trans hbase)
  | apply pos fn args hfn hargs => exact written_apply hfn hargs

end Emitter
end StackLisp
