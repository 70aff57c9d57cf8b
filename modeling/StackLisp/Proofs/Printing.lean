import StackLisp.Expr.Walk
import StackLisp.Proofs.Atoms

/-! Printing and reading again. The text of an expression that was read is read as the same
expression, up to the places of its parts and within the same depth. -/
namespace StackLisp

namespace Expr

open Datum (Spells nesting nestingAll)
open Text (lit join)
open Token (Writes Plain Genuine IsToken)

mutual
/-- The expression without its places. -/
def erase : Expr → Expr
  | literal _ v => literal {} v
  | ident _ n => ident {} n
  | call _ fn args => call {} (erase fn) (eraseAll args)
  | cond _ test yes none => cond {} (erase test) (erase yes) none
  | cond _ test yes (some no) => cond {} (erase test) (erase yes) (some (erase no))
  | lambda _ n params body => lambda {} n params (eraseAll body)
  | define _ n value => define {} n (erase value)
  | const _ n value => const {} n (erase value)
  | letIn _ bindings body => letIn {} (eraseBindings bindings) (eraseAll body)
  | block _ body => block {} (eraseAll body)
  | and _ operands => and {} (eraseAll operands)
  | or _ operands => or {} (eraseAll operands)
  | apply _ fn args => apply {} (erase fn) (eraseAll args)
termination_by structural e => e

def eraseAll : List Expr → List Expr
  | [] => []
  | e :: es => erase e :: eraseAll es
termination_by structural es => es

def eraseBindings : List (Binding Expr) → List (Binding Expr)
  | [] => []
  | ⟨n, _, v⟩ :: bs => ⟨n, {}, erase v⟩ :: eraseBindings bs
termination_by structural bs => bs
end

/-- The characters of a string. -/
def quoted : Expr → List Text.Glyph
  | literal _ (.string s) => Text.glyphs s
  | _ => []

/-- All strings in the expression hold characters that are written as they are or by an escape that
can be read. -/
def Quotable (e : Expr) : Prop :=
  ∀ x ∈ e.visited fun _ => true, ∀ g ∈ x.quoted, Token.Quotable g

instance (e : Expr) : Decidable e.Quotable :=
  inferInstanceAs (Decidable (∀ x ∈ e.visited fun _ => true, ∀ g ∈ x.quoted, Token.Quotable g))

theorem visited_eq (e : Expr) :
    (e.visited fun _ => true) = e :: e.children.flatMap (visited fun _ => true) := by
  cases e with
  | cond pos test yes no => cases no <;> simp [visited, children]
  | _ => simp [visited, visitedAll_eq, visitedBindings_eq, children]

theorem Quotable.self {e : Expr} (h : e.Quotable) : ∀ g ∈ e.quoted, Token.Quotable g :=
  h e (by rw [visited_eq]; exact List.mem_cons_self)

theorem Quotable.children {e : Expr} (h : e.Quotable) : ∀ x ∈ e.children, x.Quotable := by
  intro x hx y hy
  refine h y ?_
  rw [visited_eq]
  exact List.mem_cons_of_mem _ (List.mem_flatMap.2 ⟨x, hx, hy⟩)

/-! ### The text of a form -/

theorem join_cons (sep text : Bytes) (texts : List Bytes) :
    join sep (text :: texts) = text ++ texts.flatMap (sep ++ ·) := by
  induction texts generalizing text with
  | nil => simp [join]
  | cons next texts ih =>
    have hnext := ih next
    rw [join] at hnext
    rw [join, List.intercalate_cons_cons, hnext, List.flatMap_cons, List.append_assoc,
      List.append_assoc]

theorem flatMap_parts {parts : List Bytes} (h : ∀ p ∈ parts, p ≠ []) :
    parts.flatMap (fun p => if p = [] then [] else lit " " ++ p) =
      parts.flatMap (lit " " ++ ·) := by
  induction parts with
  | nil => rfl
  | cons p parts ih =>
    obtain ⟨hp, hparts⟩ := List.forall_mem_cons.1 h
    rw [List.flatMap_cons, List.flatMap_cons, if_neg hp, ih hparts]

theorem form_eq_parenthesised {head : Bytes} {parts : List Bytes} (h : ∀ p ∈ parts, p ≠ []) :
    form head parts = parenthesised (head :: parts) := by
  rw [form, parenthesised, flatMap_parts h, join_cons, List.append_assoc (lit "(")]

/-- A part that is several texts stands for these texts, and for nothing if there is none. -/
theorem form_join {head : Bytes} {parts texts : List Bytes} (h : ∀ t ∈ texts, t ≠ []) :
    form head (parts ++ [join (lit " ") texts]) = form head (parts ++ texts) := by
  have htexts : [join (lit " ") texts].flatMap (fun p => if p = [] then [] else lit " " ++ p) =
      texts.flatMap (fun p => if p = [] then [] else lit " " ++ p) := by
    cases texts with
    | nil => rfl
    | cons t texts =>
      obtain ⟨ht, -⟩ := List.forall_mem_cons.1 h
      rw [flatMap_parts h, List.flatMap_singleton, join_cons, if_neg (by simp [ht]),
        List.flatMap_cons, List.append_assoc]
  rw [form, form, List.flatMap_append, List.flatMap_append, htexts]

theorem form_eq (head : Bytes) (parts : List Bytes) {texts : List Bytes}
    (h : ∀ p ∈ parts ++ texts, p ≠ []) :
    form head (parts ++ [join (lit " ") texts]) = parenthesised (head :: (parts ++ texts)) := by
  rw [form_join fun t ht => h t (List.mem_append_right _ ht), form_eq_parenthesised h]

theorem renderBindings_eq (bs : List (Binding Expr)) :
    renderBindings bs = bs.map fun b => parenthesised [b.name, render b.value] := by
  induction bs with
  | nil => rfl
  | cons b bs ih =>
    rw [renderBindings, ih, List.map_cons, parenthesised, join_cons]
    simp

/-! ### Forms as they are read -/

section
variable {o head : Token} {k d : Datum} {items ds : List Datum} {stop : Position}
  {n : Bytes} {params : List Bytes}

theorem headKeyword?_of_spells {kw : Keyword} (h : k.Spells kw.word) :
    headKeyword? k = some (kw.word, kw) := by
  obtain ⟨t, rfl, hkind, hliteral⟩ := h
  rw [headKeyword?, if_pos hkind, hliteral, keyword?_eq_some.2 rfl]
  rfl

/-- A keyword is not an expression by itself. -/
theorem headKeyword?_of_ofDatum {e : Expr} (h : ofDatum d = .ok e) : headKeyword? d = none := by
  cases d with
  | list => rfl
  | atom t =>
    rw [headKeyword?]
    split
    · next hkind =>
      cases hk : keyword? t.literal with
      | none => rfl
      | some kw =>
        have hname := keyword?_eq_some.1 hk
        rw [ofDatum, ofAtom, hkind] at h
        dsimp only at h
        rw [if_neg (by rw [hname]; cases kw <;> decide), if_neg (by rw [hname]; cases kw <;> decide),
          hk] at h
        cases h
    · rfl

theorem symbol_of_names (role : String) (h : Names d n) : symbol role d = .ok n := by
  obtain ⟨⟨t, rfl, hkind, rfl⟩, hreserved⟩ := h
  rw [symbol, if_neg (not_not_intro hkind), hreserved]
  rfl

theorem parameters_of_names (h : List.Forall₂ Names ds params) : parameters ds = .ok params := by
  unfold parameters
  induction h with
  | nil => rfl
  | cons hd _ ih =>
    rw [List.mapM_cons, symbol_of_names _ hd, ih]
    rfl

theorem ofDatum_call {fn : Expr} {args : List Expr} (hfn : ofDatum d = .ok fn)
    (hargs : ofData ds = .ok args) :
    ofDatum (.list o (d :: ds) stop) = .ok (call o.start fn args) := by
  rw [ofDatum, headKeyword?_of_ofDatum hfn]
  dsimp only
  rw [hfn, hargs]
  rfl

theorem checkOperands_of_accepts {form : Datum} {word : Bytes} {range : OperandRange} {m : Nat}
    (h : range.accepts m = true) : checkOperands form word range m = .ok () := if_pos h

theorem ofDatum_block {es : List Expr} (hk : k.Spells Keyword.block.word) (h : ofData ds = .ok es) :
    ofDatum (.list o (k :: ds) stop) = .ok (block o.start es) := by
  rw [ofDatum, headKeyword?_of_spells hk]
  dsimp only
  rw [checkOperands_of_accepts (by simp [operands, OperandRange.accepts]), h]
  rfl

theorem ofDatum_and {es : List Expr} (hk : k.Spells Keyword.and.word) (h : ofData ds = .ok es) :
    ofDatum (.list o (k :: ds) stop) = .ok (and o.start es) := by
  rw [ofDatum, headKeyword?_of_spells hk]
  dsimp only
  rw [checkOperands_of_accepts (by simp [operands, OperandRange.accepts]), h]
  rfl

theorem ofDatum_or {es : List Expr} (hk : k.Spells Keyword.or.word) (h : ofData ds = .ok es) :
    ofDatum (.list o (k :: ds) stop) = .ok (or o.start es) := by
  rw [ofDatum, headKeyword?_of_spells hk]
  dsimp only
  rw [checkOperands_of_accepts (by simp [operands, OperandRange.accepts]), h]
  rfl

theorem ofDatum_apply {fn : Expr} {args : List Expr} (hk : k.Spells Keyword.apply.word)
    (hfn : ofDatum d = .ok fn) (hargs : ofData ds = .ok args) :
    ofDatum (.list o (k :: d :: ds) stop) = .ok (apply o.start fn args) := by
  rw [ofDatum, headKeyword?_of_spells hk]
  dsimp only
  rw [checkOperands_of_accepts (by simp [operands, OperandRange.accepts]), hfn, hargs]
  rfl

theorem ofDatum_cond {d₁ d₂ : Datum} {test yes : Expr} (hk : k.Spells Keyword.cond.word)
    (htest : ofDatum d₁ = .ok test) (hyes : ofDatum d₂ = .ok yes) :
    ofDatum (.list o [k, d₁, d₂] stop) = .ok (cond o.start test yes none) := by
  rw [ofDatum, headKeyword?_of_spells hk]
  dsimp only
  rw [checkOperands_of_accepts (by simp [operands, OperandRange.accepts]), htest, hyes]
  rfl

theorem ofDatum_condElse {d₁ d₂ d₃ : Datum} {test yes no : Expr} (hk : k.Spells Keyword.cond.word)
    (htest : ofDatum d₁ = .ok test) (hyes : ofDatum d₂ = .ok yes) (hno : ofDatum d₃ = .ok no) :
    ofDatum (.list o [k, d₁, d₂, d₃] stop) = .ok (cond o.start test yes (some no)) := by
  rw [ofDatum, headKeyword?_of_spells hk]
  dsimp only
  rw [checkOperands_of_accepts (by simp [operands, OperandRange.accepts]), htest, hyes, hno]
  rfl

theorem ofDatum_const {value : Expr} {d' : Datum} (hk : k.Spells Keyword.const.word)
    (hname : Names d n) (hvalue : ofDatum d' = .ok value) :
    ofDatum (.list o [k, d, d'] stop) = .ok (const o.start n value) := by
  rw [ofDatum, headKeyword?_of_spells hk]
  dsimp only
  rw [checkOperands_of_accepts (by simp [operands, OperandRange.accepts]),
    symbol_of_names _ hname, hvalue]
  rfl

theorem ofDatum_define {value : Expr} {d' : Datum} (hk : k.Spells Keyword.define.word)
    (hname : Names d n) (hvalue : ofDatum d' = .ok value) :
    ofDatum (.list o [k, d, d'] stop) = .ok (define o.start n value) := by
  have hsymbol := symbol_of_names "definition name" hname
  obtain ⟨⟨t, rfl, -⟩, -⟩ := hname
  rw [ofDatum, headKeyword?_of_spells hk]
  dsimp only
  rw [checkOperands_of_accepts (by simp [operands, OperandRange.accepts]),
    checkOperands_of_accepts (by simp [OperandRange.accepts]), hsymbol, hvalue]
  rfl

theorem ofDatum_defineFunction {p : Token} {q : Position} {names : List Datum} {body : List Expr}
    (hk : k.Spells Keyword.define.word) (hname : Names d n)
    (hparams : List.Forall₂ Names names params) (hbody : ofData ds = .ok body) :
    ofDatum (.list o (k :: .list p (d :: names) q :: ds) stop) =
      .ok (define o.start n (lambda p.start n params body)) := by
  rw [ofDatum, headKeyword?_of_spells hk]
  dsimp only
  rw [checkOperands_of_accepts (by simp [operands, OperandRange.accepts]),
    symbol_of_names _ hname, parameters_of_names hparams, hbody]
  rfl

theorem ofDatum_lambda {p : Token} {q : Position} {names : List Datum} {body : List Expr}
    (hk : k.Spells Keyword.lambda.word) (hparams : List.Forall₂ Names names params)
    (hbody : ofData ds = .ok body) :
    ofDatum (.list o (k :: .list p names q :: ds) stop) = .ok (lambda o.start [] params body) := by
  rw [ofDatum, headKeyword?_of_spells hk]
  dsimp only
  rw [checkOperands_of_accepts (by simp [operands, OperandRange.accepts]),
    parameters_of_names hparams, hbody]
  rfl

theorem ofDatum_letIn {p : Token} {q : Position} {bs : List Datum}
    {bindings : List (Binding Expr)} {body : List Expr} (hk : k.Spells Keyword.letIn.word)
    (hbindings : ofBindings bs = .ok bindings) (hbody : ofData ds = .ok body) :
    ofDatum (.list o (k :: .list p bs q :: ds) stop) = .ok (letIn o.start bindings body) := by
  rw [ofDatum, headKeyword?_of_spells hk]
  dsimp only
  rw [checkOperands_of_accepts (by simp [operands, OperandRange.accepts]), hbindings, hbody]
  rfl

end

/-! ### Texts that are read as the expression -/

/-- The datum spells the expression up to places, and nests at most `n` deep. -/
def Respells (n : Nat) (e : Expr) (d : Datum) : Prop :=
  d.nesting ≤ n ∧ ∃ e', ofDatum d = .ok e' ∧ e'.erase = e.erase

/-- The text of the expression is read as the expression wherever it stands. -/
def Printable (n : Nat) (e : Expr) : Prop := Writes e.render (Respells n e)

theorem Printable.mono {m n : Nat} {e : Expr} (h : Printable m e) (hmn : m ≤ n) : Printable n e :=
  Writes.mono h fun _ hd => ⟨Nat.le_trans hd.1 hmn, hd.2⟩

/-- A name that may be bound. -/
def Bindable (n : Bytes) : Prop :=
  Plain n ∧ Token.classify n = .ident ∧ isReserved n = false

theorem writes_name {n : Bytes} (h : Bindable n) : Writes n (Names · n) := by
  obtain ⟨hplain, hkind, hreserved⟩ := h
  refine (Token.writes_plain hplain).mono fun d hd => ⟨?_, hreserved⟩
  rwa [hkind] at hd

theorem writes_keyword (k : Keyword) : Writes k.word (Spells · k.word) := by
  have hplain : Plain k.word := by
    cases k <;> exact ⟨by decide, _, rfl, by decide⟩
  have hkind : Token.classify k.word = .ident := by cases k <;> decide
  refine (Token.writes_plain hplain).mono fun d hd => ?_
  rwa [hkind] at hd

theorem Names.nesting_le {d : Datum} {name : Bytes} (h : Names d name) (n : Nat) :
    d.nesting ≤ n := by
  obtain ⟨⟨t, rfl, -⟩, -⟩ := h
  exact Nat.zero_le n

section
variable {n : Nat}

theorem forall₂_printable {es : List Expr} (h : ∀ e ∈ es, Printable n e) :
    List.Forall₂ Writes (renderAll es) (es.map (Respells n)) := by
  induction es with
  | nil => exact .nil
  | cons e es ih =>
    obtain ⟨he, hes⟩ := List.forall_mem_cons.1 h
    exact .cons he (ih hes)

theorem forall₂_names {names : List Bytes} (h : ∀ name ∈ names, Bindable name) :
    List.Forall₂ Writes names (names.map fun name => (Names · name)) := by
  induction names with
  | nil => exact .nil
  | cons name names ih =>
    obtain ⟨hname, hnames⟩ := List.forall_mem_cons.1 h
    exact .cons (writes_name hname) (ih hnames)

theorem ne_nil_of_forall₂ {texts : List Bytes} {Ms : List (Datum → Prop)}
    (h : List.Forall₂ Writes texts Ms) : ∀ text ∈ texts, text ≠ [] := by
  induction h with
  | nil => simp
  | cons htext _ ih => exact List.forall_mem_cons.2 ⟨htext.ne_nil, ih⟩

theorem ofData_of_respells {es : List Expr} {ds : List Datum}
    (h : List.Forall₂ (fun M d => M d) (es.map (Respells n)) ds) :
    nestingAll ds ≤ n ∧ ∃ es', ofData ds = .ok es' ∧ eraseAll es' = eraseAll es := by
  induction es generalizing ds with
  | nil =>
    cases h
    exact ⟨Nat.zero_le _, [], rfl, rfl⟩
  | cons e es ih =>
    rw [List.map_cons, List.forall₂_cons_left_iff] at h
    obtain ⟨d, ds, ⟨hnest, e', he', heq⟩, hds, rfl⟩ := h
    obtain ⟨hnests, es', hes', heqs⟩ := ih hds
    refine ⟨Nat.max_le.2 ⟨hnest, hnests⟩, e' :: es', ?_, ?_⟩
    · rw [ofData, he', hes']
      rfl
    · exact congrArg₂ List.cons heq heqs

theorem names_of_forall₂ {names : List Bytes} {ds : List Datum}
    (h : List.Forall₂ (fun M d => M d) (names.map fun name => (Names · name)) ds) :
    nestingAll ds = 0 ∧ List.Forall₂ Names ds names := by
  induction names generalizing ds with
  | nil =>
    cases h
    exact ⟨rfl, .nil⟩
  | cons name names ih =>
    rw [List.map_cons, List.forall₂_cons_left_iff] at h
    obtain ⟨d, ds, hd, hds, rfl⟩ := h
    obtain ⟨hnest, hnames⟩ := ih hds
    refine ⟨?_, .cons hd hnames⟩
    obtain ⟨⟨t, rfl, -⟩, -⟩ := hd
    rw [nestingAll, hnest, nesting]
    rfl

/-- The text of a list is read as the expression that the data of its parts spell. -/
theorem printable_list {e : Expr} {texts : List Bytes} {Ms : List (Datum → Prop)}
    (hrender : e.render = parenthesised texts) (hparts : List.Forall₂ Writes texts Ms)
    (hread : ∀ o items stop, List.Forall₂ (fun M d => M d) Ms items → nestingAll items ≤ n ∧
      ∃ e', ofDatum (.list o items stop) = .ok e' ∧ e'.erase = e.erase) :
    Printable (n + 1) e := by
  unfold Printable
  rw [hrender]
  refine (Token.writes_list hparts).mono ?_
  rintro d ⟨o, items, stop, rfl, hitems⟩
  obtain ⟨hnest, hspells⟩ := hread o items stop hitems
  exact ⟨by rw [nesting]; omega, hspells⟩

variable {pos : Position} {fn value : Expr} {es : List Expr} {name : Bytes} {params : List Bytes}

theorem printable_call (hfn : Printable n fn) (hes : ∀ e ∈ es, Printable n e) :
    Printable (n + 1) (call pos fn es) := by
  have hparts := forall₂_printable hes
  refine printable_list (form_eq _ [] (ne_nil_of_forall₂ hparts)) (.cons hfn hparts)
    fun o items stop hitems => ?_
  obtain ⟨d, ds, ⟨hnest, fn', hfn', heq⟩, hds, rfl⟩ := List.forall₂_cons_left_iff.1 hitems
  obtain ⟨hnests, es', hes', heqs⟩ := ofData_of_respells hds
  refine ⟨Nat.max_le.2 ⟨hnest, hnests⟩, _, ofDatum_call hfn' hes', ?_⟩
  exact congrArg₂ (call {}) heq heqs

/-- The text of a special form is read as the expression that the data of its operands spell. -/
theorem printable_form {e : Expr} {k : Keyword} {texts : List Bytes} {Ms : List (Datum → Prop)}
    (hrender : e.render = parenthesised (k.word :: texts)) (hparts : List.Forall₂ Writes texts Ms)
    (hread : ∀ o head items stop, head.Spells k.word → List.Forall₂ (fun M d => M d) Ms items →
      nestingAll items ≤ n ∧
        ∃ e', ofDatum (.list o (head :: items) stop) = .ok e' ∧ e'.erase = e.erase) :
    Printable (n + 1) e := by
  refine printable_list hrender (.cons (writes_keyword k) hparts) fun o items stop hitems => ?_
  obtain ⟨head, items, hhead, hrest, rfl⟩ := List.forall₂_cons_left_iff.1 hitems
  obtain ⟨hnest, hspells⟩ := hread o head items stop hhead hrest
  refine ⟨Nat.max_le.2 ⟨?_, hnest⟩, hspells⟩
  obtain ⟨t, rfl, -⟩ := hhead
  exact Nat.zero_le n

/-- A form that holds nothing but expressions behind its keyword. -/
theorem printable_sequence {k : Keyword} {make : Position → List Expr → Expr}
    (hrender : (make pos es).render = form k.word [join (lit " ") (renderAll es)])
    (herase : ∀ o es, (make o es).erase = make {} (eraseAll es))
    (hread : ∀ {o head ds stop es}, head.Spells k.word → ofData ds = .ok es →
      ofDatum (.list o (head :: ds) stop) = .ok (make o.start es))
    (hes : ∀ e ∈ es, Printable n e) : Printable (n + 1) (make pos es) := by
  have hparts := forall₂_printable hes
  refine printable_form (hrender.trans (form_eq _ [] (ne_nil_of_forall₂ hparts))) hparts
    fun o head items stop hhead hitems => ?_
  obtain ⟨hnest, es', hes', heqs⟩ := ofData_of_respells hitems
  refine ⟨hnest, _, hread hhead hes', ?_⟩
  rw [herase, herase, heqs]

theorem printable_block (hes : ∀ e ∈ es, Printable n e) : Printable (n + 1) (block pos es) :=
  printable_sequence (k := .block) rfl (fun _ _ => rfl) ofDatum_block hes

theorem printable_and (hes : ∀ e ∈ es, Printable n e) : Printable (n + 1) (and pos es) :=
  printable_sequence (k := .and) rfl (fun _ _ => rfl) ofDatum_and hes

theorem printable_or (hes : ∀ e ∈ es, Printable n e) : Printable (n + 1) (or pos es) :=
  printable_sequence (k := .or) rfl (fun _ _ => rfl) ofDatum_or hes

theorem printable_apply (hfn : Printable n fn) (hes : ∀ e ∈ es, Printable n e) :
    Printable (n + 1) (apply pos fn es) := by
  have hparts := forall₂_printable (List.forall_mem_cons.2 ⟨hfn, hes⟩)
  refine printable_form (k := .apply) (form_eq _ [fn.render] (ne_nil_of_forall₂ hparts)) hparts
    fun o head items stop hhead hitems => ?_
  obtain ⟨d, ds, ⟨hnest, fn', hfn', heq⟩, hds, rfl⟩ := List.forall₂_cons_left_iff.1 hitems
  obtain ⟨hnests, es', hes', heqs⟩ := ofData_of_respells hds
  refine ⟨Nat.max_le.2 ⟨hnest, hnests⟩, _, ofDatum_apply hhead hfn' hes', ?_⟩
  exact congrArg₂ (apply {}) heq heqs

theorem printable_cond {test yes : Expr} (htest : Printable n test) (hyes : Printable n yes) :
    Printable (n + 1) (cond pos test yes none) := by
  have hparts : List.Forall₂ Writes [test.render, yes.render] [Respells n test, Respells n yes] :=
    .cons htest (.cons hyes .nil)
  refine printable_form (k := .cond) (form_eq_parenthesised (ne_nil_of_forall₂ hparts)) hparts
    fun o head items stop hhead hitems => ?_
  obtain _ | ⟨⟨hnest₁, test', htest', heq₁⟩, _ | ⟨⟨hnest₂, yes', hyes', heq₂⟩, ⟨⟩⟩⟩ := hitems
  refine ⟨Nat.max_le.2 ⟨hnest₁, Nat.max_le.2 ⟨hnest₂, Nat.zero_le n⟩⟩, _,
    ofDatum_cond hhead htest' hyes', ?_⟩
  exact congrArg₂ (cond {} · · none) heq₁ heq₂

theorem printable_condElse {test yes no : Expr} (htest : Printable n test)
    (hyes : Printable n yes) (hno : Printable n no) :
    Printable (n + 1) (cond pos test yes (some no)) := by
  have hparts : List.Forall₂ Writes [test.render, yes.render, no.render]
      [Respells n test, Respells n yes, Respells n no] :=
    .cons htest (.cons hyes (.cons hno .nil))
  refine printable_form (k := .cond) (form_eq_parenthesised (ne_nil_of_forall₂ hparts)) hparts
    fun o head items stop hhead hitems => ?_
  obtain _ | ⟨⟨hnest₁, test', htest', heq₁⟩, _ | ⟨⟨hnest₂, yes', hyes', heq₂⟩,
    _ | ⟨⟨hnest₃, no', hno', heq₃⟩, ⟨⟩⟩⟩⟩ := hitems
  refine ⟨Nat.max_le.2 ⟨hnest₁, Nat.max_le.2 ⟨hnest₂, Nat.max_le.2 ⟨hnest₃, Nat.zero_le n⟩⟩⟩, _,
    ofDatum_condElse hhead htest' hyes' hno', ?_⟩
  rw [erase, erase, heq₁, heq₂, heq₃]

theorem printable_const (hname : Bindable name) (hvalue : Printable n value) :
    Printable (n + 1) (const pos name value) := by
  have hparts : List.Forall₂ Writes [name, value.render] [(Names · name), Respells n value] :=
    .cons (writes_name hname) (.cons hvalue .nil)
  refine printable_form (k := .const) (form_eq_parenthesised (ne_nil_of_forall₂ hparts)) hparts
    fun o head items stop hhead hitems => ?_
  obtain _ | ⟨hd, _ | ⟨⟨hnest, value', hvalue', heq⟩, ⟨⟩⟩⟩ := hitems
  refine ⟨Nat.max_le.2 ⟨hd.nesting_le n, Nat.max_le.2 ⟨hnest, Nat.zero_le n⟩⟩, _,
    ofDatum_const hhead hd hvalue', ?_⟩
  exact congrArg (const {} name) heq

/-- The name by which a function calls itself. -/
def ownName : Expr → Bytes
  | lambda _ name _ _ => name
  | _ => []

theorem render_define (hname : name ≠ []) (hvalue : value.ownName = []) :
    (define pos name value).render = form (lit "define") [name, value.render] := by
  cases value with
  | lambda place own params body =>
    obtain rfl : own = [] := hvalue
    exact if_neg hname.symm
  | _ => rfl

theorem printable_define (hname : Bindable name) (hown : value.ownName = [])
    (hvalue : Printable n value) : Printable (n + 1) (define pos name value) := by
  have hparts : List.Forall₂ Writes [name, value.render] [(Names · name), Respells n value] :=
    .cons (writes_name hname) (.cons hvalue .nil)
  have hrender : (define pos name value).render =
      parenthesised [Keyword.define.word, name, value.render] :=
    (render_define (writes_name hname).ne_nil hown).trans
      (form_eq_parenthesised (ne_nil_of_forall₂ hparts))
  refine printable_form (k := .define) hrender hparts fun o head items stop hhead hitems => ?_
  obtain _ | ⟨hd, _ | ⟨⟨hnest, value', hvalue', heq⟩, ⟨⟩⟩⟩ := hitems
  refine ⟨Nat.max_le.2 ⟨hd.nesting_le n, Nat.max_le.2 ⟨hnest, Nat.zero_le n⟩⟩, _,
    ofDatum_define hhead hd hvalue', ?_⟩
  exact congrArg (define {} name) heq

theorem printable_lambda (hn : 1 ≤ n) (hparams : ∀ p ∈ params, Bindable p)
    (hes : ∀ e ∈ es, Printable n e) : Printable (n + 1) (lambda pos [] params es) := by
  have hparts := List.Forall₂.cons (Token.writes_list (forall₂_names hparams))
    (forall₂_printable hes)
  refine printable_form (k := .lambda) (form_eq _ [_] (ne_nil_of_forall₂ hparts)) hparts
    fun o head items stop hhead hitems => ?_
  obtain ⟨_, ds, ⟨p, names, q, rfl, hnames⟩, hds, rfl⟩ := List.forall₂_cons_left_iff.1 hitems
  obtain ⟨hnest, hnames⟩ := names_of_forall₂ hnames
  obtain ⟨hnests, es', hes', heqs⟩ := ofData_of_respells hds
  refine ⟨Nat.max_le.2 ⟨?_, hnests⟩, _, ofDatum_lambda hhead hnames hes', ?_⟩
  · rwa [nesting, hnest]
  · exact congrArg (lambda {} [] params) heqs

theorem printable_defineFunction {place : Position} (hn : 1 ≤ n) (hname : Bindable name)
    (hparams : ∀ p ∈ params, Bindable p) (hes : ∀ e ∈ es, Printable n e) :
    Printable (n + 1) (define pos name (lambda place name params es)) := by
  have hparts := List.Forall₂.cons
    (Token.writes_list (forall₂_names (List.forall_mem_cons.2 ⟨hname, hparams⟩)))
    (forall₂_printable hes)
  have hrender : (define pos name (lambda place name params es)).render =
      parenthesised (Keyword.define.word :: parenthesised (name :: params) :: renderAll es) := by
    rw [render, if_pos rfl]
    exact form_eq _ [_] (ne_nil_of_forall₂ hparts)
  refine printable_form (k := .define) hrender hparts fun o head items stop hhead hitems => ?_
  obtain ⟨_, ds, ⟨p, names, q, rfl, hnames⟩, hds, rfl⟩ := List.forall₂_cons_left_iff.1 hitems
  obtain ⟨hnest, hnames⟩ := names_of_forall₂ hnames
  obtain ⟨hnests, es', hes', heqs⟩ := ofData_of_respells hds
  obtain ⟨d, names, hd, hparams', rfl⟩ := List.forall₂_cons_right_iff.1 hnames
  refine ⟨Nat.max_le.2 ⟨?_, hnests⟩, _, ofDatum_defineFunction hhead hd hparams' hes', ?_⟩
  · rwa [nesting, hnest]
  · exact congrArg (fun body => define {} name (lambda {} name params body)) heqs

/-- The datum is a binding that spells `b` up to places, one level below the bound. -/
def RespellsBinding (n : Nat) (b : Binding Expr) (d : Datum) : Prop :=
  d.nesting + 1 ≤ n ∧ ∃ o first second stop value, d = .list o [first, second] stop ∧
    Names first b.name ∧ ofDatum second = .ok value ∧ value.erase = b.value.erase

theorem writes_binding {m : Nat} {b : Binding Expr} (hm : m + 2 ≤ n) (hname : Bindable b.name)
    (hvalue : Printable m b.value) :
    Writes (parenthesised [b.name, b.value.render]) (RespellsBinding n b) := by
  refine (Token.writes_list (.cons (writes_name hname) (.cons hvalue .nil))).mono ?_
  rintro _ ⟨o, items, stop, rfl, hitems⟩
  obtain _ | @⟨_, d, _, _, hd, _ | @⟨_, d', _, _, ⟨hnest, value, hvalue, heq⟩, ⟨⟩⟩⟩ := hitems
  refine ⟨?_, o, d, d', stop, value, rfl, hd, hvalue, heq⟩
  have hfirst := hd.nesting_le 0
  simp only [nesting, nestingAll]
  omega

theorem ofBindings_of_respells {bs : List (Binding Expr)} {ds : List Datum}
    (h : List.Forall₂ (fun M d => M d) (bs.map (RespellsBinding n)) ds) :
    nestingAll ds ≤ n - 1 ∧
      ∃ bs', ofBindings ds = .ok bs' ∧ eraseBindings bs' = eraseBindings bs := by
  induction bs generalizing ds with
  | nil =>
    cases h
    exact ⟨Nat.zero_le _, [], rfl, rfl⟩
  | cons b bs ih =>
    rw [List.map_cons, List.forall₂_cons_left_iff] at h
    obtain ⟨_, ds, ⟨hnest, o, first, second, stop, value, rfl, hname, hvalue, heq⟩, hds, rfl⟩ := h
    obtain ⟨hnests, bs', hbs', heqs⟩ := ih hds
    refine ⟨Nat.max_le.2 ⟨by omega, hnests⟩, ⟨b.name, first.start, value⟩ :: bs', ?_, ?_⟩
    · rw [ofBindings, symbol_of_names _ hname, hvalue, hbs']
      rfl
    · exact congrArg₂ (fun v vs => ⟨b.name, {}, v⟩ :: vs) heq heqs

theorem printable_letIn {bindings : List (Binding Expr)} (hn : 1 ≤ n)
    (hbindings : ∀ b ∈ bindings, Bindable b.name ∧ ∃ m, m + 2 ≤ n ∧ Printable m b.value)
    (hes : ∀ e ∈ es, Printable n e) : Printable (n + 1) (letIn pos bindings es) := by
  have hbs : List.Forall₂ Writes (renderBindings bindings) (bindings.map (RespellsBinding n)) := by
    rw [renderBindings_eq, List.forall₂_map_left_iff, List.forall₂_map_right_iff]
    refine List.forall₂_same.2 fun b hb => ?_
    obtain ⟨hname, m, hm, hvalue⟩ := hbindings b hb
    exact writes_binding hm hname hvalue
  have hparts := List.Forall₂.cons (Token.writes_list hbs) (forall₂_printable hes)
  refine printable_form (k := .letIn) (form_eq _ [_] (ne_nil_of_forall₂ hparts)) hparts
    fun o head items stop hhead hitems => ?_
  obtain ⟨_, ds, ⟨p, bs, q, rfl, hbs⟩, hds, rfl⟩ := List.forall₂_cons_left_iff.1 hitems
  obtain ⟨hnest, bs', hbs', heq⟩ := ofBindings_of_respells hbs
  obtain ⟨hnests, es', hes', heqs⟩ := ofData_of_respells hds
  refine ⟨Nat.max_le.2 ⟨?_, hnests⟩, _, ofDatum_letIn hhead hbs' hes', ?_⟩
  · rw [nesting]
    omega
  · exact congrArg₂ (letIn {}) heq heqs

end

/-! ### Atoms -/

theorem printable_token {e : Expr} {kind : TokenKind} {literal : Bytes}
    (hwrites : Writes e.render (IsToken kind literal))
    (hread : ∀ t : Token, t.kind = kind → t.literal = literal →
      ∃ e', ofAtom t = .ok e' ∧ e'.erase = e.erase) : Printable 0 e := by
  refine hwrites.mono ?_
  rintro d ⟨t, rfl, hkind, hliteral⟩
  exact ⟨Nat.le_refl 0, hread t hkind hliteral⟩

theorem codePoint_encodeChar (c : Char) :
    codePoint (Text.encodeChar c) = Int32.ofNat c.toNat := by
  have hglyphs := Text.glyphs_encodeChar c []
  rw [List.append_nil] at hglyphs
  simp [codePoint, Text.chars, hglyphs]

section
variable (pos : Position)

theorem printable_int (i : Int64) : Printable 0 (literal pos (.int i)) := by
  refine printable_token (Token.writes_int i) fun t hkind hliteral => ?_
  rw [ofAtom, hkind, hliteral, Number.readInt_decimalInt]
  exact ⟨_, rfl, rfl⟩

theorem printable_float {x : Double} (hfinite : x.exponentField < 2047) :
    Printable 0 (literal pos (.float x)) := by
  refine printable_token (Token.writes_float hfinite) fun t hkind hliteral => ?_
  rw [ofAtom, hkind, hliteral, Double.readFloat_render hfinite]
  exact ⟨_, rfl, rfl⟩

theorem printable_string {cs : List Char} (h : ∀ c ∈ cs, Token.Quotable ⟨c, Text.encodeChar c⟩) :
    Printable 0 (literal pos (.string (Text.encode cs))) := by
  refine printable_token (Token.writes_string h) fun t hkind hliteral => ?_
  rw [ofAtom, hkind, hliteral]
  exact ⟨_, rfl, rfl⟩

theorem printable_character (c : Char) :
    Printable 0 (literal pos (.char (codePoint (Text.encodeChar c)))) := by
  rw [codePoint_encodeChar]
  refine printable_token (Token.writes_character c) fun t hkind hliteral => ?_
  rw [ofAtom, hkind, hliteral, codePoint_encodeChar]
  exact ⟨_, rfl, rfl⟩

end

/-- Words are names and the truth values. -/
theorem printable_word {t : Token} {e : Expr} (hwrites : Writes t.literal (IsToken .ident t.literal))
    (hident : t.kind = .ident) (h : ofAtom t = .ok e) : Printable 0 e := by
  rw [ofAtom, hident] at h
  dsimp only at h
  split at h
  · next htrue =>
    cases h
    rw [htrue] at hwrites
    refine printable_token hwrites fun t' hkind hliteral => ?_
    rw [ofAtom, hkind, hliteral]
    exact ⟨_, rfl, rfl⟩
  split at h
  · next hfalse =>
    cases h
    rw [hfalse] at hwrites
    refine printable_token hwrites fun t' hkind hliteral => ?_
    rw [ofAtom, hkind, hliteral]
    exact ⟨_, rfl, rfl⟩
  split at h
  · cases h
  · next htrue hfalse hkeyword =>
    cases h
    refine printable_token hwrites fun t' hkind hliteral => ?_
    rw [ofAtom, hkind, hliteral]
    dsimp only
    rw [if_neg htrue, if_neg hfalse, if_neg hkeyword]
    exact ⟨_, rfl, rfl⟩

theorem printable_atom {t : Token} {e : Expr} (ht : t.Genuine) (h : ofAtom t = .ok e)
    (hquotable : e.Quotable) : Printable 0 e := by
  have hatom := h
  unfold ofAtom at h
  split at h
  · cases hr : Number.readInt t.literal <;> rw [hr] at h <;> cases h
    exact printable_int _ _
  · next hfloat =>
    cases hr : Number.readFloat t.literal <;> rw [hr] at h <;> cases h
    have hplain := ht.plain (by rw [hfloat]; decide) (by rw [hfloat]; decide)
    exact printable_float _ (Number.finite_of_readFloat (hplain.2.trans hfloat) hr)
  · next hstring =>
    cases h
    obtain ⟨cs, hcs⟩ := ht.string hstring
    rw [hcs] at hquotable ⊢
    refine printable_string _ fun c hc => hquotable.self _ ?_
    rw [quoted, Text.glyphs_encode]
    exact List.mem_map.2 ⟨c, hc, rfl⟩
  · next hchar =>
    cases h
    obtain ⟨c, hc⟩ := ht.char hchar
    rw [hc]
    exact printable_character _ c
  · next hint hfloat hstring hchar =>
    obtain ⟨hplain, hclassify⟩ := ht.plain hstring hchar
    have hident : Token.classify t.literal = .ident := by
      rcases Token.classify_cases t.literal with hc | hc | hc
      · exact hc
      · exact absurd (hclassify.symm.trans hc) hint
      · exact absurd (hclassify.symm.trans hc) hfloat
    have hwrites := Token.writes_plain hplain
    rw [hident] at hwrites
    exact printable_word hwrites (hclassify.symm.trans hident) hatom

theorem printable_unit (pos : Position) : Printable 1 (literal pos .unit) :=
  printable_list (n := 0) rfl .nil fun o items stop hitems => by
    cases hitems
    exact ⟨Nat.le_refl 0, _, rfl, rfl⟩

theorem ownName_ofAtom {t : Token} {e : Expr} (h : ofAtom t = .ok e) : e.ownName = [] := by
  unfold ofAtom at h
  split at h
  · cases hr : Number.readInt t.literal <;> rw [hr] at h <;> cases h
    rfl
  · cases hr : Number.readFloat t.literal <;> rw [hr] at h <;> cases h
    rfl
  · cases h
    rfl
  · cases h
    rfl
  · split_ifs at h <;> cases h <;> rfl

/-! ### What is read can be printed -/

/-- Every expression that is read is printed as a text that is read as this expression, and nests
no deeper than the datum from which it was read. -/
def Reprints (d : Datum) (e : Expr) : Prop :=
  d.Made Genuine → e.Quotable → e.ownName = [] ∧ Printable d.nesting e

theorem bindable_of_names {d : Datum} {n : Bytes} (hd : d.Made Genuine) (h : Names d n) :
    Bindable n := by
  obtain ⟨⟨t, rfl, hkind, rfl⟩, hreserved⟩ := h
  have ht := Datum.made_atom.1 hd
  obtain ⟨hplain, hclassify⟩ := ht.plain (by rw [hkind]; decide) (by rw [hkind]; decide)
  exact ⟨hplain, hclassify.trans hkind, hreserved⟩

theorem bindable_all {ds : List Datum} {names : List Bytes} (hds : ∀ d ∈ ds, d.Made Genuine)
    (h : List.Forall₂ Names ds names) : ∀ n ∈ names, Bindable n :=
  Readable.all h (fun _ _ => bindable_of_names) hds

theorem printable_all {ds : List Datum} {es : List Expr} {n : Nat}
    (h : List.Forall₂ Reprints ds es) (hds : ∀ d ∈ ds, d.Made Genuine)
    (hes : ∀ e ∈ es, e.Quotable) (hn : nestingAll ds ≤ n) : ∀ e ∈ es, Printable n e := by
  induction h with
  | nil => simp
  | cons hd _ ih =>
    obtain ⟨hmade, hds⟩ := List.forall_mem_cons.1 hds
    obtain ⟨hquotable, hes⟩ := List.forall_mem_cons.1 hes
    obtain ⟨hfirst, hrest⟩ := Nat.max_le.1 hn
    exact List.forall_mem_cons.2 ⟨(hd hmade hquotable).2.mono hfirst, ih hds hes hrest⟩

theorem printable_bindings {ds : List Datum} {bs : List (Binding Expr)} {n : Nat}
    (h : List.Forall₂ (Binds Reprints) ds bs) (hds : ∀ d ∈ ds, d.Made Genuine)
    (hbs : ∀ b ∈ bs, b.value.Quotable) (hn : nestingAll ds + 1 ≤ n) :
    ∀ b ∈ bs, Bindable b.name ∧ ∃ m, m + 2 ≤ n ∧ Printable m b.value := by
  induction h with
  | nil => simp
  | cons hd _ ih =>
    obtain ⟨o, name, value, stop, rfl, hname, hvalue⟩ := hd
    obtain ⟨hmade, hds⟩ := List.forall_mem_cons.1 hds
    obtain ⟨hquotable, hbs⟩ := List.forall_mem_cons.1 hbs
    simp only [Datum.made_list, List.forall_mem_cons] at hmade
    simp only [nestingAll, nesting] at hn
    refine List.forall_mem_cons.2 ⟨⟨bindable_of_names hmade.1 hname, value.nesting, by omega,
      (hvalue hmade.2.1 hquotable).2⟩, ih hds hbs (by omega)⟩

theorem Reprints.compositional : Compositional Reprints where
  atom he hd hq := ⟨ownName_ofAtom he, printable_atom (Datum.made_atom.1 hd) he hq⟩
  unit _ _ := ⟨rfl, printable_unit _⟩
  call hfn hargs hd hq := by
    simp only [Datum.made_list, List.forall_mem_cons] at hd
    obtain ⟨hqfn, hqargs⟩ := List.forall_mem_cons.1 hq.children
    refine ⟨rfl, printable_call ((hfn hd.1 hqfn).2.mono (Nat.le_max_left _ _)) ?_⟩
    exact printable_all hargs hd.2 hqargs (Nat.le_max_right _ _)
  apply _ hfn hargs hd hq := by
    simp only [Datum.made_list, List.forall_mem_cons] at hd
    obtain ⟨hqfn, hqargs⟩ := List.forall_mem_cons.1 hq.children
    refine ⟨rfl, printable_apply ((hfn hd.2.1 hqfn).2.mono ?_)
      (printable_all hargs hd.2.2 hqargs ?_)⟩
    all_goals simp [nestingAll]
  cond _ htest hyes hd hq := by
    simp only [Datum.made_list, List.forall_mem_cons] at hd
    obtain ⟨hqtest, hqrest⟩ := List.forall_mem_cons.1 hq.children
    obtain ⟨hqyes, -⟩ := List.forall_mem_cons.1 hqrest
    refine ⟨rfl, printable_cond ((htest hd.2.1 hqtest).2.mono ?_) ((hyes hd.2.2.1 hqyes).2.mono ?_)⟩
    all_goals simp [nestingAll]
  condElse _ htest hyes hno hd hq := by
    simp only [Datum.made_list, List.forall_mem_cons] at hd
    obtain ⟨hqtest, hqrest⟩ := List.forall_mem_cons.1 hq.children
    obtain ⟨hqyes, hqrest⟩ := List.forall_mem_cons.1 hqrest
    obtain ⟨hqno, -⟩ := List.forall_mem_cons.1 hqrest
    refine ⟨rfl, printable_condElse ((htest hd.2.1 hqtest).2.mono ?_)
      ((hyes hd.2.2.1 hqyes).2.mono ?_) ((hno hd.2.2.2.1 hqno).2.mono ?_)⟩
    all_goals simp [nestingAll]
  lambda _ hparams hbody hd hq := by
    simp only [Datum.made_list, List.forall_mem_cons] at hd
    refine ⟨rfl, printable_lambda ?_ (bindable_all hd.2.1 hparams)
      (printable_all hbody hd.2.2 hq.children ?_)⟩
    all_goals simp [nestingAll, nesting]
  define _ hname hvalue hd hq := by
    simp only [Datum.made_list, List.forall_mem_cons] at hd
    obtain ⟨hqvalue, -⟩ := List.forall_mem_cons.1 hq.children
    obtain ⟨hown, hprintable⟩ := hvalue hd.2.2.1 hqvalue
    refine ⟨rfl, printable_define (bindable_of_names hd.2.1 hname) hown (hprintable.mono ?_)⟩
    simp [nestingAll]
  defineFunction _ hname hparams hbody hd hq := by
    simp only [Datum.made_list, List.forall_mem_cons] at hd
    obtain ⟨hqvalue, -⟩ := List.forall_mem_cons.1 hq.children
    refine ⟨rfl, printable_defineFunction ?_ (bindable_of_names hd.2.1.1 hname)
      (bindable_all hd.2.1.2 hparams) (printable_all hbody hd.2.2 hqvalue.children ?_)⟩
    all_goals simp [nestingAll, nesting]
  const _ hname hvalue hd hq := by
    simp only [Datum.made_list, List.forall_mem_cons] at hd
    obtain ⟨hqvalue, -⟩ := List.forall_mem_cons.1 hq.children
    refine ⟨rfl, printable_const (bindable_of_names hd.2.1 hname)
      ((hvalue hd.2.2.1 hqvalue).2.mono ?_)⟩
    simp [nestingAll]
  letIn _ hbindings hbody hd hq := by
    simp only [Datum.made_list, List.forall_mem_cons] at hd
    obtain ⟨hqbindings, hqbody⟩ := List.forall_mem_append.1 hq.children
    refine ⟨rfl, printable_letIn ?_
      (printable_bindings hbindings hd.2.1 (List.forall_mem_map.1 hqbindings) ?_)
      (printable_all hbody hd.2.2 hqbody ?_)⟩
    all_goals simp [nestingAll, nesting]
  block _ hbody hd hq := by
    simp only [Datum.made_list, List.forall_mem_cons] at hd
    exact ⟨rfl, printable_block (printable_all hbody hd.2 hq.children (Nat.le_max_right _ _))⟩
  and _ hes hd hq := by
    simp only [Datum.made_list, List.forall_mem_cons] at hd
    exact ⟨rfl, printable_and (printable_all hes hd.2 hq.children (Nat.le_max_right _ _))⟩
  or _ hes hd hq := by
    simp only [Datum.made_list, List.forall_mem_cons] at hd
    exact ⟨rfl, printable_or (printable_all hes hd.2 hq.children (Nat.le_max_right _ _))⟩

end Expr

namespace Datum

theorem nesting_of_read {limit : Int} {ending : Ending} {ts left : List Token} {d : Datum}
    (h : read limit ending ts = .ok (d, left)) : d.nesting ≤ limit.toNat := by
  have hne : ts ≠ [] := by
    rintro rfl
    cases h
  obtain ⟨-, -, -, hfit⟩ := (read_ok_iff hne).1 (readWithin_finished h {})
  exact hfit

end Datum

namespace Program

/-- A text that is written for an expression is read as this one expression. -/
theorem read_of_printable {e : Expr} {n : Nat} (h : Expr.Printable n e) {options : ReadOptions}
    (hn : n ≤ options.depth.toNat) :
    ∃ e', read options e.render = ⟨[e'], []⟩ ∧ e'.erase = e.erase := by
  obtain ⟨d, ts, q, ⟨hnest, e', he', heq⟩, hts, hscan⟩ :=
    h [] { file := options.filename } Token.bounded_nil
  refine ⟨e', ?_, heq⟩
  have hend : Token.scanFrom (Text.glyphs []) q = ⟨[], .finished q⟩ :=
    Token.scanFrom_of_nil (rfl : Token.skipBlank false [] q = ([], q))
  have htokens : Token.scan options.filename e.render = ⟨ts, .finished q⟩ := by
    rw [List.append_nil, hend] at hscan
    simpa [Tokens.behind, Token.scan] using hscan
  have hread := hts.read (Nat.le_trans hnest hn) q []
  rw [List.append_nil] at hread
  rw [read, ofTokens, htokens]
  cases ts with
  | nil => cases hread
  | cons t rest => rw [readFrom_of_form (by decide) hread he', readFrom]

/-- Printing a form that was read and reading its text gives the form back, up to the places of its
parts. Only strings with characters that are written by their number are excepted. -/
theorem read_render {options : ReadOptions} {source : Bytes} {e : Expr}
    (he : e ∈ (read options source).forms) (hquotable : e.Quotable) (file : Bytes) :
    ∃ e', read { options with filename := file } e.render = ⟨[e'], []⟩ ∧ e'.erase = e.erase := by
  obtain ⟨d, start, left, hstart, hread, hd⟩ := exists_read_of_mem he
  have hmade : d.Made Token.Genuine := Datum.made_of_read
    (fun t ht => Token.scan_genuine options.filename source t (hstart.subset ht)) hread
  have hprintable := (Expr.Reprints.compositional.ofDatum hd hmade hquotable).2
  exact read_of_printable hprintable (Datum.nesting_of_read hread)

theorem read_render_nested : ∃ source, ∃ e ∈ (read {} source).forms, e.Quotable ∧
    ∃ e', read { filename := Text.lit "area" } e.render = ⟨[e'], []⟩ ∧ e'.erase = e.erase := by
  let source := Text.lit
    "(define (area w h) (let ((k -1.5e-7) (s \"a\\n\\\"b\")) (if (and w #\\() (apply * k w ()) (do))))"
  have hne : (read {} source).forms ≠ [] := by decide +kernel
  have hquotable : ∀ e ∈ (read {} source).forms, e.Quotable := by decide +kernel
  have hmem := List.head_mem hne
  exact ⟨source, _, hmem, hquotable _ hmem, read_render hmem (hquotable _ hmem) (Text.lit "area")⟩

end Program
end StackLisp
