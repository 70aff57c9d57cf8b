import StackLisp.Proofs.Adequacy
import StackLisp.Proofs.Arguments
import StackLisp.Proofs.Buffers
import StackLisp.Proofs.References

/-! The compiler that writes into a buffer, beside the one that puts pieces of code together. A
computation of the first follows one of the second if it ends in the same way: with the bytes of
the same pieces, or with the same refusal. It never ends with a defect then. -/
namespace StackLisp

open Fragment (op instr)

/-- A refusal because of a limit. -/
def Refusal.isLimit : Refusal → Bool
  | tooManyConstants _ | tooManySlots _ | tooManyCaptures _ | tooManyLocals _
  | tooManyParameters _ | tooManyArguments _ | tooManyLeading _ | jumpTooFar _ _ => true
  | _ => false

theorem Need.isLimit_refusal (owner : Owner) (need : Need) :
    (need.refusal owner).isLimit = true := by
  cases need <;> rfl

namespace Emitter

/-- What was asked for before a refusal. If it is because of a limit, the last demand was the first
that there was not enough for, and the refusal is the one that goes with it; if not, there was
enough for all. -/
inductive Accounts : List Demand → LocatedRefusal → Prop where
  | limit {met : List Demand} {q : Demand} : (∀ p ∈ met, p.need.Met) → ¬ q.need.Met →
      Accounts (met ++ [q]) q.refusal
  | other {qs : List Demand} {r : LocatedRefusal} : (∀ q ∈ qs, q.need.Met) →
      r.refusal.isLimit = false → Accounts qs r

namespace Accounts

variable {qs before : List Demand} {r : LocatedRefusal}

theorem isLimit_iff (h : Accounts qs r) :
    r.refusal.isLimit = true ↔ ∃ q ∈ qs, ¬ q.need.Met := by
  cases h with
  | @limit met q _ hq =>
    exact iff_of_true (Need.isLimit_refusal _ _) ⟨q, List.mem_concat_self, hq⟩
  | other hmet hother =>
    refine iff_of_false (by simp [hother]) ?_
    rintro ⟨q, hq, hunmet⟩
    exact hunmet (hmet q hq)

/-- Demands that there was enough for may stand before the others. -/
theorem behind (h : Accounts qs r) (hbefore : ∀ q ∈ before, q.need.Met) :
    Accounts (before ++ qs) r := by
  cases h with
  | limit hmet hq =>
    rw [← List.append_assoc]
    exact .limit (List.forall_mem_append.2 ⟨hbefore, hmet⟩) hq
  | other hmet hother => exact .other (List.forall_mem_append.2 ⟨hbefore, hmet⟩) hother

end Accounts

section
variable {ε σ α β : Type} {m : ExceptT ε (StateM σ) α} {k : α → ExceptT ε (StateM σ) β} {s s' : σ}

theorem bind_of_ok {a : α} (h : m s = (.ok a, s')) : (m >>= k) s = k a s' := by
  change ExceptT.bindCont k (m s).1 (m s).2 = _
  rw [h]
  rfl

theorem bind_of_error {e : ε} (h : m s = (.error e, s')) : (m >>= k) s = (.error e, s') := by
  change ExceptT.bindCont k (m s).1 (m s).2 = _
  rw [h]
  rfl

end

section
variable {α β γ δ : Type}

/-- From states that `R` relates, `m` ends as `l` does. If both succeed, `Q` relates the results and
the states that they leave; if both refuse, what was asked for tells why. -/
def Follows (R : State → Draft → Prop) (m : Emitter α) (l : Lower β)
    (Q : α → β → State → Draft → Prop) : Prop :=
  ∀ s d, R s d →
    match l d with
    | (.ok x, d') => ∃ a s', m s = (.ok a, s') ∧ Q a x s' d'
    | (.error r, _) => ∃ s', m s = (.error (.refused r), s') ∧ Accounts s'.demands r

/-- `m` succeeds and leads from `R` to `Q` while nothing happens on the other side. -/
def Leads (R : State → Draft → Prop) (m : Emitter α) (Q : α → State → Draft → Prop) : Prop :=
  ∀ s d, R s d → ∃ a s', m s = (.ok a, s') ∧ Q a s' d

variable {R : State → Draft → Prop} {m : Emitter α} {l : Lower β}
  {Q : α → β → State → Draft → Prop}

theorem Follows.bind {k : α → Emitter γ} {k' : β → Lower δ} {Q' : γ → δ → State → Draft → Prop}
    (h : Follows R m l Q)
    (hk : ∀ a x, (∃ d d', Lower.Yields l d x d') → Follows (Q a x) (k a) (k' x) Q') :
    Follows R (m >>= k) (l >>= k') Q' := by
  intro s d hR
  have hm := h s d hR
  rcases hl : l d with ⟨r, d₁⟩
  rw [hl] at hm
  cases r with
  | error r =>
    obtain ⟨s₁, hs, hr⟩ := hm
    rw [bind_of_error hl]
    exact ⟨s₁, bind_of_error hs, hr⟩
  | ok x =>
    obtain ⟨a, s₁, hs, hq⟩ := hm
    rw [bind_of_ok hl, bind_of_ok hs]
    exact hk a x ⟨d, d₁, hl⟩ s₁ d₁ hq

/-- The last step on the side of the pieces. -/
theorem Follows.result {k : β → δ} {Q' : α → δ → State → Draft → Prop} (h : Follows R m l Q)
    (hQ : ∀ a x s d, Q a x s d → Q' a (k x) s d) :
    Follows R m (l >>= fun x => pure (k x)) Q' := by
  intro s d hR
  have hm := h s d hR
  rcases hl : l d with ⟨r, d₁⟩
  rw [hl] at hm
  cases r with
  | error r =>
    rw [bind_of_error hl]
    exact hm
  | ok x =>
    obtain ⟨a, s₁, hs, hq⟩ := hm
    rw [bind_of_ok hl]
    exact ⟨a, s₁, hs, hQ a x s₁ d₁ hq⟩

/-- A step on the side of the buffer alone. -/
theorem Leads.bind {R' : γ → State → Draft → Prop} {m : Emitter γ} {k : γ → Emitter α}
    (h : Leads R m R') (hk : ∀ c, Follows (R' c) (k c) l Q) : Follows R (m >>= k) l Q := by
  intro s d hR
  obtain ⟨c, s', hm, hR'⟩ := h s d hR
  rw [bind_of_ok hm]
  exact hk c s' d hR'

theorem Leads.andThen {R' : γ → State → Draft → Prop} {m : Emitter γ} {k : γ → Emitter α}
    {Q : α → State → Draft → Prop} (h : Leads R m R') (hk : ∀ c, Leads (R' c) (k c) Q) :
    Leads R (m >>= k) Q := by
  intro s d hR
  obtain ⟨c, s', hm, hR'⟩ := h s d hR
  rw [bind_of_ok hm]
  exact hk c s' d hR'

/-- The last steps on the side of the buffer. -/
theorem Leads.last {x : β} (h : Leads R m fun a => Q a x) : Follows R m (pure x) Q := by
  intro s d hR
  exact h s d hR

theorem leads_pure {a : α} {Q : α → State → Draft → Prop} (h : ∀ s d, R s d → Q a s d) :
    Leads R (pure a) Q := by
  intro s d hR
  exact ⟨a, s, rfl, h s d hR⟩

theorem follows_given {x : Except Defect γ} {c : γ} {k : γ → Emitter α} (hx : x = .ok c)
    (h : Follows R (k c) l Q) : Follows R (given x >>= k) l Q := by
  intro s d hR
  have hgiven : given x s = (.ok c, s) := by
    rw [hx]
    rfl
  rw [bind_of_ok hgiven]
  exact h s d hR

end

/-! ### Steps -/

/-- The buffer holds a piece, `n` of whose jumps have no target, the pool keeps its limit, and there
was enough for all demands. -/
structure At (f : Fragment) (n : Int) (s : State) (d : Draft) : Prop where
  code : s.code.Shows f n
  draft : s.draft = d
  pool : d.pool.length ≤ Limit.constants
  met : ∀ q ∈ s.demands, q.need.Met

variable {α β γ δ : Type} {ctx : Context} {pos : Position} {p q f g : Fragment} {n : Int}

theorem At.demanding {s : State} {d : Draft} {q : Demand} (h : At f n s d) (hq : q.need.Met) :
    At f n (s.demanding q) d where
  code := h.code
  draft := h.draft
  pool := h.pool
  met := List.forall_mem_append.2 ⟨h.met, List.forall_mem_singleton.2 hq⟩

theorem At.accounts {s : State} {d : Draft} {need : Need} {owner : Owner} (h : At f n s d)
    (hneed : ¬ need.Met) :
    Accounts (s.demanding ⟨need, pos, owner⟩).demands ⟨need.refusal owner, pos⟩ :=
  .limit (q := ⟨need, pos, owner⟩) h.met hneed

section
variable {m : Emitter α} {l : Lower β} {Q : α → β → State → Draft → Prop} {r : Refusal}

theorem follows_refuse (h : r.isLimit = false) :
    Follows (At f n) (refuse pos r) (Lower.refuse pos r) Q := by
  intro s d hat
  exact ⟨s, rfl, .other hat.met h⟩

theorem follows_refused {k : γ → Emitter α} {k' : δ → Lower β} (h : r.isLimit = false) :
    Follows (At f n) (refuse pos r >>= k) (Lower.refuse pos r >>= k') Q := by
  intro s d hat
  exact ⟨s, rfl, .other hat.met h⟩

/-- A check that refuses on both sides. -/
theorem follows_unless {c : Prop} [Decidable c] {k : PUnit → Emitter α} {k' : PUnit → Lower β}
    (hr : r.isLimit = false) (h : ¬ c → Follows (At f n) (k ⟨⟩) (k' ⟨⟩) Q) :
    Follows (At f n) (if c then refuse pos r >>= k else k ⟨⟩)
      (if c then Lower.refuse pos r >>= k' else k' ⟨⟩) Q := by
  split
  · exact follows_refused hr
  · next hc => exact h hc

theorem demand_of_met {need : Need} (h : need.Met) (s : State) :
    demand ctx pos need s = (.ok ⟨⟩, s.demanding ⟨need, pos, ctx.owner⟩) := by
  change (if ¬ need.Met then _ else _ : Emitter Unit) _ = _
  rw [if_neg (not_not_intro h)]
  rfl

theorem demand_of_unmet {need : Need} (h : ¬ need.Met) (s : State) :
    demand ctx pos need s = (.error (.refused ⟨need.refusal ctx.owner, pos⟩),
      s.demanding ⟨need, pos, ctx.owner⟩) := by
  change (if ¬ need.Met then _ else _ : Emitter Unit) _ = _
  rw [if_pos h]
  rfl

/-- A demand on one side is a check of the limit on the other. -/
theorem follows_demand {need : Need} {c : Prop} [Decidable c] {k : Unit → Emitter α}
    {l₁ l₂ : Lower β} (hc : c ↔ ¬ need.Met)
    (hrefuse : ∀ d, l₁ d = (.error ⟨need.refusal ctx.owner, pos⟩, d))
    (h : need.Met → Follows (At f n) (k ⟨⟩) l₂ Q) :
    Follows (At f n) (demand ctx pos need >>= k) (if c then l₁ else l₂) Q := by
  intro s d hat
  by_cases hmet : need.Met
  · rw [bind_of_ok (demand_of_met hmet s), if_neg (by rwa [hc, not_not])]
    exact h hmet _ d (hat.demanding hmet)
  · rw [if_pos (hc.2 hmet), hrefuse]
    exact ⟨_, bind_of_error (demand_of_unmet hmet s), hat.accounts hmet⟩

end

/-- A step that leaves the code alone and needs nothing of which there is only so much: it keeps the
limit of the pool, and its result has the property `φ`. -/
def Keeps (φ : α → Prop) (l : Lower α) : Prop :=
  ∀ d, d.pool.length ≤ Limit.constants →
    match l d with
    | (.ok a, d') => φ a ∧ d'.pool.length ≤ Limit.constants
    | (.error r, _) => r.refusal.isLimit = false

theorem Keeps.follows {φ : α → Prop} {l : Lower α} (h : Keeps φ l) :
    Follows (At f n) (lift l) l fun a x s d => (a = x ∧ φ x) ∧ At f n s d := by
  intro s d hat
  have hl := h d hat.pool
  have hdraft := hat.draft
  revert hl
  rcases hd : l d with ⟨r, d'⟩
  subst hdraft
  cases r with
  | error r =>
    intro hr
    exact ⟨{ s with draft := d' }, by rw [lift, hd], .other hat.met hr⟩
  | ok a =>
    rintro ⟨ha, hpool⟩
    exact ⟨a, { s with draft := d' }, by rw [lift, hd], ⟨rfl, ha⟩, hat.code, rfl, hpool, hat.met⟩

theorem Keeps.bind {φ : α → Prop} {l : Lower α} {k : α → Emitter γ}
    {k' : α → Lower δ} {Q : γ → δ → State → Draft → Prop} (h : Keeps φ l)
    (hk : ∀ a, φ a → Follows (At f n) (k a) (k' a) Q) :
    Follows (At f n) (lift l >>= k) (l >>= k') Q := by
  refine h.follows.bind fun a x _ s d hs => ?_
  obtain ⟨⟨rfl, ha⟩, hat⟩ := hs
  exact hk a ha s d hat

/-- A step that changes neither the code nor the pool. -/
theorem keeps_pure {φ : α → Prop} {a : α} (h : φ a) : Keeps φ (pure a) := by
  intro d hpool
  exact ⟨h, hpool⟩

theorem keeps_refuse {φ : α → Prop} {r : Refusal} (h : r.isLimit = false) :
    Keeps φ (Lower.refuse pos r) := by
  intro d _
  exact h

/-- A step that gives the index of an entry of the pool, if there is room for the entry. -/
def Enters (ctx : Context) (pos : Position) (need : List Constant → Need) (l : Lower Nat) : Prop :=
  ∀ d, d.pool.length ≤ Limit.constants →
    ((need d.pool).Met → ∃ i d', l d = (.ok i, d') ∧ i < 256 ∧ d'.pool.length ≤ Limit.constants) ∧
      (¬ (need d.pool).Met → l d = (.error ⟨(need d.pool).refusal ctx.owner, pos⟩, d))

theorem Enters.bind {need : List Constant → Need} {l : Lower Nat} {k : Nat → Emitter α}
    {k' : Nat → Lower β} {Q : α → β → State → Draft → Prop} (h : Enters ctx pos need l)
    (hk : ∀ i < 256, Follows (At f n) (k i) (k' i) Q) :
    Follows (At f n) (entry ctx pos need l >>= k) (l >>= k') Q := by
  intro s d hat
  obtain rfl := hat.draft
  obtain ⟨hmet, hunmet⟩ := h s.draft hat.pool
  have hentry : entry ctx pos need l s =
      (demand ctx pos (need s.draft.pool) >>= fun _ => lift l : Emitter Nat) s := rfl
  by_cases hneed : (need s.draft.pool).Met
  · obtain ⟨i, d', hl, hi, hpool⟩ := hmet hneed
    have hrun : entry ctx pos need l s = (.ok i,
        { s.demanding ⟨need s.draft.pool, pos, ctx.owner⟩ with draft := d' }) := by
      have hdraft : l (s.demanding ⟨need s.draft.pool, pos, ctx.owner⟩).draft = (.ok i, d') := hl
      rw [hentry, bind_of_ok (demand_of_met hneed s), lift, hdraft]
    rw [bind_of_ok hl, bind_of_ok hrun]
    exact hk i hi _ d' ⟨hat.code, rfl, hpool, (hat.demanding hneed).met⟩
  · rw [bind_of_error (hunmet hneed)]
    refine ⟨_, bind_of_error ?_, hat.accounts hneed⟩
    rw [hentry]
    exact bind_of_error (demand_of_unmet hneed s)

theorem addConstant_of_room {c : Constant} {d : Draft} (h : d.pool.length < 256) :
    Lower.addConstant ctx pos c d = (.ok d.pool.length, { d with pool := d.pool ++ [c] }) :=
  Lower.yields_addConstant.2 ⟨h, rfl, rfl⟩

theorem addConstant_of_full {c : Constant} {d : Draft} (h : ¬ d.pool.length < 256) :
    Lower.addConstant ctx pos c d = (.error ⟨.tooManyConstants ctx.owner, pos⟩, d) := by
  change (if d.pool.length ≥ 256 then _ else _ : Lower Nat) d = _
  rw [if_pos (Nat.le_of_not_lt h)]
  rfl

theorem length_append_singleton_le {c : Constant} {pool : List Constant} (h : pool.length < 256) :
    (pool ++ [c]).length ≤ Limit.constants := by
  rw [List.length_append]
  exact h

theorem enters_function (place : Nat) :
    Enters ctx pos .function (Lower.addConstant ctx pos (.function place)) := by
  intro d _
  refine ⟨fun hroom => ?_, fun hfull => addConstant_of_full hfull⟩
  exact ⟨_, _, addConstant_of_room hroom, hroom, length_append_singleton_le hroom⟩

theorem enters_value (v : Value) : Enters ctx pos (.value v) (Lower.intern ctx pos v) := by
  intro d hpool
  rw [Lower.intern, bind_of_ok (rfl : (get : Lower Draft) d = (.ok d, d))]
  cases hi : d.pool.idxOf? (.value v) with
  | some i =>
    obtain ⟨hlt, -⟩ := List.findIdx?_eq_some_iff_getElem.1 hi
    have hmem : .value v ∈ d.pool := by
      rw [← List.isSome_idxOf?, hi]
      rfl
    refine ⟨fun _ => ⟨i, d, rfl, Nat.lt_of_lt_of_le hlt hpool, hpool⟩, fun h => ?_⟩
    exact absurd (.inl hmem) h
  | none =>
    have hnot : .value v ∉ d.pool := List.idxOf?_eq_none_iff.1 hi
    refine ⟨fun hmet => ?_, fun hunmet => ?_⟩
    · have hroom : d.pool.length < 256 := hmet.resolve_left hnot
      exact ⟨_, _, addConstant_of_room hroom, hroom, length_append_singleton_le hroom⟩
    · exact addConstant_of_full fun hroom => hunmet (.inr hroom)

theorem keeps_resolve (name : Bytes) :
    Keeps (fun r => r = ctx.lookup name) (Lower.resolve ctx pos name) := by
  unfold Lower.resolve
  split
  · split <;> exact keeps_refuse rfl
  · exact keeps_pure rfl

theorem keeps_complete (g : Function) : Keeps (fun _ => True) (Lower.complete g) := by
  intro d hpool
  exact ⟨trivial, hpool⟩

theorem keeps_modify {change : Draft → Draft} (h : ∀ d, (change d).pool = d.pool) :
    Keeps (fun _ => True) (modify change : Lower Unit) := by
  intro d hpool
  have hsame := h d
  refine ⟨trivial, ?_⟩
  rw [hsame]
  exact hpool

theorem keeps_checkArity (v : Value) (argc : Nat) :
    Keeps (fun _ => True) (Lower.checkArity ctx pos v argc) := by
  unfold Lower.checkArity
  split
  · split
    · split
      · exact keeps_refuse rfl
      · exact keeps_pure trivial
    · exact keeps_pure trivial
  · exact keeps_pure trivial

theorem follows_checkFunction {params : List Bytes} {captures : Nat} {k : PUnit → Emitter α}
    {k' : PUnit → Lower β} {Q : α → β → State → Draft → Prop}
    (h : captures ≤ Limit.captures → params.length + captures ≤ Limit.slots →
      Follows (At f n) (k ⟨⟩) (k' ⟨⟩) Q) :
    Follows (At f n) (checkFunction ctx pos params captures >>= k)
      (Lower.checkFunction pos params captures >>= k') Q := by
  have hcheck : Follows (At f n) (checkFunction ctx pos params captures)
      (Lower.checkFunction pos params captures) fun _ _ s d =>
        (captures ≤ Limit.captures ∧ params.length + captures ≤ Limit.slots) ∧ At f n s d := by
    refine follows_demand Nat.not_le.symm (fun _ => rfl) fun hcaptures => ?_
    refine follows_demand Nat.not_le.symm (fun _ => rfl) fun hlocals => ?_
    rw [← bind_pure (demand ctx pos _)]
    refine follows_demand Nat.not_le.symm (fun _ => rfl) fun _ => Leads.last ?_
    exact leads_pure fun s d hat => ⟨⟨hcaptures, hlocals⟩, hat⟩
  refine hcheck.bind fun _ _ _ s d hs => ?_
  obtain ⟨⟨hcaptures, hlocals⟩, hat⟩ := hs
  exact h hcaptures hlocals s d hat

/-- A system function that is called is a primitive, if the table is the standard one. -/
theorem keeps_callee (hstandard : ctx.options.builtins = .standard) (fn : Expr) :
    Keeps (fun c => ∀ b, c = .builtin b → ∃ p, b = .ofPrimitive p) (Lower.callee ctx fn) := by
  cases fn with
  | ident place name =>
    intro d hpool
    have hkeeps : Keeps (fun r => r = ctx.lookup name) (Lower.resolve ctx place name) :=
      keeps_resolve name
    have hresolve := hkeeps d hpool
    rcases hd : Lower.resolve ctx place name d with ⟨r, d'⟩
    rw [hd] at hresolve
    cases r with
    | error r =>
      rw [Lower.callee, bind_of_error hd]
      exact hresolve
    | ok r =>
      obtain ⟨hr, hpool'⟩ := hresolve
      rw [Lower.callee, bind_of_ok hd]
      cases r with
      | builtin b =>
        refine ⟨?_, hpool'⟩
        intro b' hb
        cases hb
        exact Context.ofPrimitive_of_lookup hstandard hr.symm
      | _ => exact ⟨by simp, hpool'⟩
  | _ => exact keeps_pure (by simp)

theorem leads_mark (pos : Position) : Leads (At f n) (mark pos) fun _ => At (f.thenMark pos) n := by
  intro s d hat
  exact ⟨⟨⟩, _, rfl, hat.code.mark pos, hat.draft, hat.pool, hat.met⟩

theorem leads_emit {i : Instruction} (h : i.Fits) :
    Leads (At f n) (emit i) fun _ => At (f ++ instr i) n := by
  intro s d hat
  have hsmall : i.operands.find? (255 < ·) = none := by
    rw [List.find?_eq_none]
    intro o ho
    have hlt := h.2 o ho
    simp
    omega
  have hrun : emit i s = (.ok ⟨⟩, { s with code := s.code.write i }) := by
    rw [emit, if_neg (not_not_intro h.1), hsmall]
    rfl
  exact ⟨⟨⟩, _, hrun, hat.code.write i, hat.draft, hat.pool, hat.met⟩

theorem leads_emitIndexed {family : Family} {k : Nat} {extra : List Nat} (hk : k < 256)
    (hcount : extra.length = family.extraOperands) (hextra : ∀ o ∈ extra, o < 256) :
    Leads (At f n) (emitIndexed family k extra) fun _ =>
      At (f ++ instr (.indexed family k extra)) n := by
  have hbyte : k.toUInt8.toNat = k := UInt8.toNat_ofNat_of_lt hk
  rw [emitIndexed, if_neg (not_not_intro hbyte), hbyte]
  exact leads_emit (Instruction.fits_indexed hk hcount hextra)

theorem leads_push (h : f.Ends) : Leads (At f n) push fun _ => At f.pushed n := by
  intro s d hat
  rw [push, bind_of_ok (rfl : (get : Emitter State) s = (.ok s, s))]
  rcases hat.code.pushLast? h with ⟨b, hb, hshows⟩ | ⟨hnone, hpushed⟩
  · rw [hb]
    exact ⟨⟨⟩, { s with code := b }, rfl, hshows, hat.draft, hat.pool, hat.met⟩
  · have hfits : (⟨.push, []⟩ : Instruction).Fits := ⟨rfl, List.forall_mem_nil _⟩
    rw [hnone, hpushed]
    exact leads_emit hfits s d hat

/-- The buffer holds a piece; whether a jump leads behind it does not matter. -/
def Past (f : Fragment) (n : Int) (s : State) (d : Draft) : Prop :=
  ∃ landing, At { f with landing } n s d

theorem Follows.past {m : Emitter α} {l : Lower β} {Q : α → β → State → Draft → Prop}
    (h : ∀ landing, Follows (At { f with landing } n) m l Q) : Follows (Past f n) m l Q := by
  rintro s d ⟨landing, hat⟩
  exact h landing s d hat

theorem At.past {s : State} {d : Draft} (h : At f n s d) : Past f n s d := ⟨f.landing, h⟩

theorem leads_jump {o : Opcode} (h : o.operandCount = 1) :
    Leads (At f n) (emitJump o) fun k s d => k = f.size + 1 ∧ At (f ++ op o [0]) (n + 1) s d := by
  intro s d hat
  have hfits : (⟨o, [0]⟩ : Instruction).Fits := ⟨h.symm, by simp⟩
  obtain ⟨_, s', hemit, hat'⟩ := leads_emit hfits s d hat
  have hshows := hat'.code
  refine ⟨s.code.offset + 1, { s' with code.pending := s'.code.pending + 1 }, ?_, ?_, ?_⟩
  · change (emit ⟨o, [0]⟩ >>= _ : Emitter Nat) s = _
    rw [bind_of_ok hemit]
    rfl
  · rw [hat.code.offset]
  · refine ⟨?_, hat'.draft, hat'.pool, hat'.met⟩
    exact ⟨hshows.bytes, hshows.locations, hshows.last, hshows.label, hshows.behind,
      congrArg (· + 1) hshows.pending⟩

theorem follows_jump {o : Opcode} {k : Nat → Emitter α} {l : Lower β}
    {Q : α → β → State → Draft → Prop} (ho : o.operandCount = 1)
    (h : Follows (At (f ++ op o [0]) (n + 1)) (k (f.size + 1)) l Q) :
    Follows (At f n) (emitJump o >>= k) l Q := by
  refine (leads_jump ho).bind fun c s d hs => ?_
  obtain ⟨rfl, hat⟩ := hs
  exact h s d hat

/-- A jump that was written gets the offset behind the code as its target, if the operand can hold
it. -/
theorem leads_label {o : Opcode} {t target : Nat} (hsize : (p ++ op o [t] ++ q).size = target)
    (h : target ≤ Limit.target) :
    Leads (At (p ++ op o [t] ++ q) n) (label ctx pos (p.size + 1)) fun _ =>
      At (p ++ op o [target] ++ q).landed (n - 1) := by
  intro s d hat
  have hoffset : s.code.offset = target := hat.code.offset.trans hsize
  have hinside : ¬ p.size + 1 ≥ s.code.offset := by
    rw [hoffset, ← hsize, Fragment.size_append, Fragment.size_append, Fragment.size_jump,
      Fragment.jumpSize]
    omega
  have hmet : (Need.target s.code.offset).Met := by
    rw [hoffset]
    exact h
  have hat' := hat.demanding (q := ⟨_, pos, ctx.owner⟩) hmet
  have hrun : label ctx pos (p.size + 1) s = (.ok ⟨⟩,
      { s.demanding ⟨.target s.code.offset, pos, ctx.owner⟩ with
        code := s.code.land (p.size + 1) }) := by
    change (demand ctx pos (.target s.code.offset) >>= _ : Emitter Unit) s = _
    rw [bind_of_ok (demand_of_met hmet s), if_neg hinside]
    rfl
  have hland := hat.code.land
  rw [hoffset] at hland
  exact ⟨⟨⟩, _, hrun, hland, hat'.draft, hat'.pool, hat'.met⟩

theorem follows_label {o : Opcode} {t target : Nat} (hsize : (p ++ op o [t] ++ q).size = target) :
    Follows (At (p ++ op o [t] ++ q) n) (label ctx pos (p.size + 1))
      (Lower.checkTarget ctx pos target) fun _ _ => At (p ++ op o [target] ++ q).landed (n - 1) := by
  unfold Lower.checkTarget
  split
  · next hfar =>
    intro s d hat
    have hoffset : s.code.offset = target := hat.code.offset.trans hsize
    have hunmet : ¬ (Need.target target).Met := Nat.not_le.2 hfar
    refine ⟨_, ?_, hat.accounts hunmet⟩
    change (demand ctx pos (.target s.code.offset) >>= _ : Emitter Unit) s = _
    rw [hoffset]
    exact bind_of_error (demand_of_unmet hunmet s)
  · next hnear => exact (leads_label hsize (Nat.le_of_not_lt hnear)).last

theorem leads_finish (h : f.Ends) : Leads (At f n) finish fun _ => At f.returning n := by
  intro s d hat
  have hterminated := hat.code.terminated h
  have hrun : finish s = (if !s.code.terminated then emit ⟨.ret, []⟩ else pure () : Emitter Unit) s :=
    rfl
  rw [hrun, hterminated]
  cases ht : f.terminated with
  | true =>
    rw [Fragment.returning_of_terminated ht]
    exact ⟨⟨⟩, s, rfl, hat⟩
  | false =>
    have hfits : (⟨.ret, []⟩ : Instruction).Fits := ⟨rfl, by simp⟩
    rw [Fragment.returning_of_not_terminated ht]
    exact leads_emit hfits s d hat

theorem leads_skip (count : Nat) : Leads (At f n) (skip count) fun _ => At (f.skipping count) n := by
  fun_induction Fragment.skips count generalizing f with
  | case1 =>
    rw [skip]
    exact leads_pure fun _ _ hat => hat
  | case2 count hne ih =>
    rw [skip, if_neg hne]
    have hfits : (⟨.skip, [min count 255]⟩ : Instruction).Fits := by
      refine ⟨rfl, fun v hv => ?_⟩
      rw [List.mem_singleton.1 hv]
      omega
    refine (leads_emit hfits).andThen fun _ => ?_
    have hrest : (f ++ instr ⟨.skip, [min count 255]⟩).skipping (count - 255) =
        f.skipping count := by
      have hcount : f.skipping count = f ++ ⟨Fragment.skips count, false⟩ := if_neg hne
      rw [hcount, Fragment.skips, dif_neg hne]
      unfold Fragment.skipping
      split
      · next hzero =>
        rw [hzero, Fragment.skips, dif_pos rfl]
        rfl
      · rw [Fragment.append_assoc]
        rfl
    rw [← hrest]
    exact ih

end Emitter
end StackLisp
