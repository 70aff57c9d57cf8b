import Mathlib.Data.List.Forall2
import StackLisp.Program
import StackLisp.Proofs.Sequences

/-! What is read from a text. A relation between data and expressions holds of every datum and the
expression that it spells, if it holds of each form of the language whenever it holds of its
parts. -/
namespace StackLisp

namespace Token

open Text (Glyph encode encodeChar)

/-- From the place `p` with `gs` ahead, the scanner comes to another place with `rest` ahead. -/
inductive Ahead (gs : List Glyph) (p : Position) : List Glyph → Position → Prop where
  | here : Ahead gs p gs p
  | next {g rest q} : Ahead gs p (g :: rest) q → Ahead gs p rest (q.after g)

namespace Ahead

variable {gs rest left : List Glyph} {p q r : Position}

theorem trans (h : Ahead gs p rest q) (h' : Ahead rest q left r) : Ahead gs p left r := by
  induction h' with
  | here => exact h
  | next _ ih => exact ih.next

theorem skip {g : Glyph} (h : Ahead gs (p.after g) rest q) : Ahead (g :: gs) p rest q :=
  trans (.next .here) h

theorem suffix (h : Ahead gs p rest q) : rest <:+ gs := by
  induction h with
  | here => exact List.suffix_rfl
  | next _ ih => exact (List.suffix_cons _ _).trans ih

end Ahead

theorem ahead_skipBlank (comment : Bool) (gs : List Glyph) (p : Position) :
    Ahead gs p (skipBlank comment gs p).1 (skipBlank comment gs p).2 := by
  fun_induction skipBlank comment gs p with
  | case1 => exact .here
  | case2 p g gs ih | case3 p g gs _ ih | case4 p g gs _ _ ih => exact ih.skip
  | case5 => exact .here

theorem ahead_spanAtom (gs : List Glyph) (p : Position) :
    Ahead gs p (spanAtom gs p).2.1 (spanAtom gs p).2.2 := by
  induction gs generalizing p with
  | nil => exact .here
  | cons g gs ih =>
    rw [spanAtom]
    split
    · exact .here
    · exact (ih _).skip

/-- An atom takes the characters up to a delimiter and keeps their bytes. -/
theorem spanAtom_split (gs : List Glyph) (p : Position) :
    ∃ taken, gs = taken ++ (spanAtom gs p).2.1 ∧
      (spanAtom gs p).1 = taken.flatMap Glyph.bytes ∧ ∀ g ∈ taken, isDelimiter g.char = false := by
  induction gs generalizing p with
  | nil => exact ⟨[], rfl, rfl, List.forall_mem_nil _⟩
  | cons g gs ih =>
    rw [spanAtom]
    split
    · exact ⟨[], rfl, rfl, List.forall_mem_nil _⟩
    · next hg =>
      obtain ⟨taken, hgs, hspan, htaken⟩ := ih (p.after g)
      refine ⟨g :: taken, congrArg (g :: ·) hgs, congrArg (g.bytes ++ ·) hspan, ?_⟩
      exact List.forall_mem_cons.2 ⟨by simpa using hg, htaken⟩

/-- A string is written anew, with at most one character for each that is passed over. -/
theorem scanString_spells {start p q : Position} {gs rest : List Glyph} {text : Bytes}
    (h : scanString start gs p = .ok (text, rest, q)) :
    Ahead gs p rest q ∧ ∃ cs, text = encode cs ∧ cs.length ≤ gs.length := by
  fun_induction scanString start gs p generalizing text rest q with
  | case1 | case3 | case4 => cases h
  | case2 p g gs =>
    cases h
    exact ⟨.next .here, [], rfl, Nat.zero_le _⟩
  | case5 g p _ _ e gs c _ ih =>
    obtain ⟨⟨tail, left, place⟩, hs, hr⟩ := Except.ok_of_bind h
    cases hr
    obtain ⟨hahead, cs, rfl, hlen⟩ := ih hs
    exact ⟨hahead.skip.skip, c :: cs, rfl, Nat.succ_le_succ (Nat.le_succ_of_le hlen)⟩
  | case6 g gs p _ _ ih =>
    obtain ⟨⟨tail, left, place⟩, hs, hr⟩ := Except.ok_of_bind h
    cases hr
    obtain ⟨hahead, cs, rfl, hlen⟩ := ih hs
    exact ⟨hahead.skip, g.char :: cs, rfl, Nat.succ_le_succ hlen⟩

/-- So is a character. -/
theorem scanCharacter_spells {start p q : Position} {gs rest : List Glyph} {text : Bytes}
    (h : scanCharacter start gs p = .ok (text, rest, q)) :
    Ahead gs p rest q ∧ ∃ c, text = encodeChar c := by
  unfold scanCharacter at h
  split at h
  · cases h
  · next g gs =>
    split at h
    · cases h
    · split at h
      · cases h
      · next c tail =>
        have hrest := (ahead_spanAtom tail ((p.after g).after c)).skip.skip
        split at h
        next hspan =>
        rw [hspan] at hrest
        split at h
        · cases h
          exact ⟨hrest, c.char, rfl⟩
        · dsimp only at h
          split at h
          · next d _ =>
            cases h
            exact ⟨hrest, d, rfl⟩
          · cases h

/-- What a token is: a single sign, a string or a character, which are written anew, or the bytes of
all characters up to a delimiter. -/
theorem scanToken_cases {g : Glyph} {gs rest : List Glyph} {p q : Position} {t : Token}
    (h : scanToken g gs p = .ok (t, rest, q)) :
    Ahead gs (p.after g) rest q ∧ t.start = p ∧ t.stop = q ∧
      ((t.kind ∈ [.opening, .closing, .quote] ∧ t.literal = g.bytes ∧ rest = gs) ∨
        (t.kind = .string ∧ ∃ cs, t.literal = encode cs ∧ cs.length ≤ gs.length) ∨
        (t.kind = .char ∧ ∃ c, t.literal = encodeChar c) ∨
        (t.kind = classify t.literal ∧ g.char ∉ ['(', ')', '\'', '"', '#'] ∧
          ∃ taken, gs = taken ++ rest ∧ t.literal = (g :: taken).flatMap Glyph.bytes ∧
            ∀ g' ∈ taken, isDelimiter g'.char = false)) := by
  unfold scanToken at h
  split at h
  · cases h
    exact ⟨.here, rfl, rfl, .inl ⟨by simp, rfl, rfl⟩⟩
  split at h
  · cases h
    exact ⟨.here, rfl, rfl, .inl ⟨by simp, rfl, rfl⟩⟩
  split at h
  · cases h
    exact ⟨.here, rfl, rfl, .inl ⟨by simp, rfl, rfl⟩⟩
  split at h
  · obtain ⟨⟨text, left, place⟩, hs, hr⟩ := Except.ok_of_bind h
    cases hr
    obtain ⟨hahead, hspells⟩ := scanString_spells hs
    exact ⟨hahead, rfl, rfl, .inr (.inl ⟨rfl, hspells⟩)⟩
  split at h
  · obtain ⟨⟨text, left, place⟩, hs, hr⟩ := Except.ok_of_bind h
    cases hr
    obtain ⟨hahead, hspells⟩ := scanCharacter_spells hs
    exact ⟨hahead, rfl, rfl, .inr (.inr (.inl ⟨rfl, hspells⟩))⟩
  · cases h
    obtain ⟨taken, hgs, hspan, htaken⟩ := spanAtom_split gs (p.after g)
    refine ⟨ahead_spanAtom gs _, rfl, rfl, .inr (.inr (.inr ⟨rfl, ?_, taken, hgs, ?_, htaken⟩))⟩
    · simp only [List.mem_cons, List.not_mem_nil, or_false, not_or]
      exact ⟨‹_›, ‹_›, ‹_›, ‹_›, ‹_›⟩
    · exact congrArg (g.bytes ++ ·) hspan

/-- A token starts with a character that is not passed over. -/
def Starts (g : Glyph) : Prop := g.char ≠ ';' ∧ Text.isBlank g.char = false

theorem starts_of_skipBlank {comment : Bool} {gs rest : List Glyph} {p q : Position} {g : Glyph}
    (h : skipBlank comment gs p = (g :: rest, q)) : Starts g := by
  fun_induction skipBlank comment gs p with
  | case1 => cases h
  | case2 _ _ _ ih | case3 _ _ _ _ ih | case4 _ _ _ _ _ ih => exact ih h
  | case5 p g gs hcomment hblank =>
    cases h
    exact ⟨hcomment, by simpa using hblank⟩

/-- What holds of each token that starts somewhere in the text holds of all its tokens. -/
theorem scanFrom_all {Q : Token → Prop} {gs : List Glyph} {p : Position}
    (h : ∀ {g rest q t rest' q'}, Ahead gs p (g :: rest) q → Starts g →
      scanToken g rest q = .ok (t, rest', q') → Q t) :
    ∀ t ∈ (scanFrom gs p).list, Q t := by
  fun_induction scanFrom gs p with
  | case1 | case2 => simp
  | case3 gs p g rest q hb t rest' q' ht ts ih =>
    have hahead : Ahead gs p (g :: rest) q := by
      have h := ahead_skipBlank false gs p
      rwa [hb] at h
    have hrest : Ahead gs p rest' q' := hahead.trans (scanToken_cases ht).1.skip
    intro t' ht'
    rcases List.mem_cons.1 ht' with rfl | ht'
    · exact h hahead (starts_of_skipBlank hb) ht
    · exact ih (fun hs => h (hrest.trans hs)) t' ht'

/-- A token that is a datum by itself. -/
def IsAtom (t : Token) : Prop := t.kind ≠ .opening ∧ t.kind ≠ .quote ∧ t.kind ≠ .closing

end Token

namespace Datum

@[elab_as_elim]
theorem induction {P : Datum → Prop} (atom : ∀ t, P (.atom t))
    (list : ∀ o items stop, (∀ d ∈ items, P d) → P (.list o items stop)) (d : Datum) : P d := by
  refine @Datum.rec P (fun ds => ∀ d ∈ ds, P d) atom list ?_ ?_ d
  · intro d hd
    simp at hd
  · intro d ds hd hds x hx
    rcases List.mem_cons.1 hx with rfl | hx
    · exact hd
    · exact hds x hx

/-- All atoms are tokens with the property `Q`. -/
inductive Made (Q : Token → Prop) : Datum → Prop where
  | atom {t} : Q t → Made Q (.atom t)
  | list {opening items stop} : (∀ d ∈ items, Made Q d) → Made Q (.list opening items stop)

theorem made_atom {Q : Token → Prop} {t : Token} : (atom t).Made Q ↔ Q t := by
  constructor
  · intro h
    cases h with
    | atom ht => exact ht
  · exact .atom

theorem made_list {Q : Token → Prop} {o : Token} {items : List Datum} {stop : Position} :
    (list o items stop).Made Q ↔ ∀ d ∈ items, d.Made Q := by
  constructor
  · intro h
    cases h with
    | list h => exact h
  · exact .list

/-- The datum is the name `n`. -/
def Spells (d : Datum) (n : Bytes) : Prop := ∃ t, d = .atom t ∧ t.kind = .ident ∧ t.literal = n

theorem passed_eq {ending : Ending} {d e : Datum} {rest left : List Token}
    (h : passed ending d rest = .ok (e, left)) : e = d ∧ left = rest := by
  unfold passed at h
  split at h <;> cases h
  exact ⟨rfl, rfl⟩

variable {Q : Token → Prop}

private theorem made_add {d : Datum} {l : Level} {outer : List Level} (hd : d.Made Q)
    (h : ∀ m ∈ l :: outer, ∀ x ∈ m.items, x.Made Q) :
    ∀ m ∈ { l with items := d :: l.items } :: outer, ∀ x ∈ m.items, x.Made Q := by
  intro m hm x hx
  rcases List.mem_cons.1 hm with rfl | hm
  · rcases List.mem_cons.1 hx with rfl | hx
    · exact hd
    · exact h l (.head _) x hx
  · exact h m (.tail _ hm) x hx

theorem readWithin_made {limit : Int} {ending : Ending} {levels : List Level}
    {ts left : List Token} {d : Datum} (hts : ∀ t ∈ ts, t.IsAtom → Q t)
    (hlevels : ∀ l ∈ levels, ∀ x ∈ l.items, x.Made Q)
    (h : readWithin limit ending levels ts = .ok (d, left)) : d.Made Q ∧ left <:+ ts := by
  fun_induction readWithin limit ending levels ts with
  | case1 | case2 | case4 | case5 => cases h
  | case3 levels t rest _ _ ih =>
    have hopen : ∀ l ∈ ⟨t, []⟩ :: levels, ∀ x ∈ l.items, x.Made Q := by
      intro l hl x hx
      rcases List.mem_cons.1 hl with rfl | hl
      · simp at hx
      · exact hlevels l hl x hx
    obtain ⟨hd, hleft⟩ := ih (fun t' ht' => hts t' (.tail _ ht')) hopen h
    exact ⟨hd, hleft.trans (List.suffix_cons _ _)⟩
  | case6 t rest _ l =>
    obtain ⟨rfl, rfl⟩ := passed_eq h
    refine ⟨.list fun x hx => ?_, List.suffix_cons _ _⟩
    exact hlevels l (.head _) x (List.mem_reverse.1 hx)
  | case7 t rest _ l closed m outer ih =>
    have hclosed : closed.Made Q :=
      .list fun x hx => hlevels l (.head _) x (List.mem_reverse.1 hx)
    obtain ⟨hd, hleft⟩ := ih (fun t' ht' => hts t' (.tail _ ht'))
      (made_add hclosed fun m' hm' => hlevels m' (.tail _ hm')) h
    exact ⟨hd, hleft.trans (List.suffix_cons _ _)⟩
  | case8 t rest hopening hquote hclosing =>
    obtain ⟨rfl, rfl⟩ := passed_eq h
    exact ⟨.atom (hts t (.head _) ⟨hopening, hquote, hclosing⟩), List.suffix_cons _ _⟩
  | case9 t rest l outer hopening hquote hclosing ih =>
    have hatom : Made Q (.atom t) := .atom (hts t (.head _) ⟨hopening, hquote, hclosing⟩)
    obtain ⟨hd, hleft⟩ := ih (fun t' ht' => hts t' (.tail _ ht')) (made_add hatom hlevels) h
    exact ⟨hd, hleft.trans (List.suffix_cons _ _)⟩

theorem made_of_read {limit : Int} {ending : Ending} {ts left : List Token} {d : Datum}
    (hts : ∀ t ∈ ts, t.IsAtom → Q t) (h : read limit ending ts = .ok (d, left)) : d.Made Q :=
  (readWithin_made hts (List.forall_mem_nil _) h).1

theorem suffix_of_read {limit : Int} {ending : Ending} {ts left : List Token} {d : Datum}
    (h : read limit ending ts = .ok (d, left)) : left <:+ ts :=
  (@readWithin_made (fun _ => True) limit ending [] ts left d (fun _ _ _ => trivial)
    (List.forall_mem_nil _) h).2

end Datum

namespace Expr

open Datum (Spells Made)

/-- The word that opens a special form. -/
def Keyword.word : Keyword → Bytes
  | .define => Text.lit "define"
  | .const => Text.lit "const"
  | .lambda => Text.lit "lambda"
  | .letIn => Text.lit "let"
  | .block => Text.lit "do"
  | .cond => Text.lit "if"
  | .and => Text.lit "and"
  | .or => Text.lit "or"
  | .apply => Text.lit "apply"

/-- The datum is the name `n`, which may be bound. -/
def Names (d : Datum) (n : Bytes) : Prop := d.Spells n ∧ isReserved n = false

/-- The datum binds a name to a value that stands in the relation `M`. -/
def Binds (M : Datum → Expr → Prop) (d : Datum) (b : Binding Expr) : Prop :=
  ∃ o name value stop, d = .list o [name, value] stop ∧ Names name b.name ∧ M value b.value

/-- A relation between data and expressions that holds of each form of the language whenever it
holds of its parts. -/
structure Compositional (M : Datum → Expr → Prop) : Prop where
  atom : ∀ {t e}, ofAtom t = .ok e → M (.atom t) e
  unit : ∀ {o stop}, M (.list o [] stop) (.literal o.start .unit)
  call : ∀ {o d ds stop fn args}, M d fn → List.Forall₂ M ds args →
    M (.list o (d :: ds) stop) (.call o.start fn args)
  apply : ∀ {o k d ds stop fn args}, k.Spells Keyword.apply.word → M d fn →
    List.Forall₂ M ds args → M (.list o (k :: d :: ds) stop) (.apply o.start fn args)
  cond : ∀ {o k d₁ d₂ stop test yes}, k.Spells Keyword.cond.word → M d₁ test → M d₂ yes →
    M (.list o [k, d₁, d₂] stop) (.cond o.start test yes none)
  condElse : ∀ {o k d₁ d₂ d₃ stop test yes no}, k.Spells Keyword.cond.word → M d₁ test →
    M d₂ yes → M d₃ no → M (.list o [k, d₁, d₂, d₃] stop) (.cond o.start test yes (some no))
  lambda : ∀ {o k p names q ds stop params body}, k.Spells Keyword.lambda.word →
    List.Forall₂ Names names params → List.Forall₂ M ds body →
    M (.list o (k :: .list p names q :: ds) stop) (.lambda o.start [] params body)
  define : ∀ {o k d₁ d₂ stop name value}, k.Spells Keyword.define.word → Names d₁ name →
    M d₂ value → M (.list o [k, d₁, d₂] stop) (.define o.start name value)
  defineFunction : ∀ {o k p d names q ds stop name params body}, k.Spells Keyword.define.word →
    Names d name → List.Forall₂ Names names params → List.Forall₂ M ds body →
    M (.list o (k :: .list p (d :: names) q :: ds) stop)
      (.define o.start name (.lambda p.start name params body))
  const : ∀ {o k d₁ d₂ stop name value}, k.Spells Keyword.const.word → Names d₁ name →
    M d₂ value → M (.list o [k, d₁, d₂] stop) (.const o.start name value)
  letIn : ∀ {o k p bs q ds stop bindings body}, k.Spells Keyword.letIn.word →
    List.Forall₂ (Binds M) bs bindings → List.Forall₂ M ds body →
    M (.list o (k :: .list p bs q :: ds) stop) (.letIn o.start bindings body)
  block : ∀ {o k ds stop body}, k.Spells Keyword.block.word → List.Forall₂ M ds body →
    M (.list o (k :: ds) stop) (.block o.start body)
  and : ∀ {o k ds stop es}, k.Spells Keyword.and.word → List.Forall₂ M ds es →
    M (.list o (k :: ds) stop) (.and o.start es)
  or : ∀ {o k ds stop es}, k.Spells Keyword.or.word → List.Forall₂ M ds es →
    M (.list o (k :: ds) stop) (.or o.start es)

/-- The datum `x` stands somewhere in another. -/
inductive Inside (x : Datum) : Datum → Prop where
  | self : Inside x x
  | item {opening d ds stop} : d ∈ ds → Inside x d → Inside x (.list opening ds stop)

theorem keyword?_eq_some {n : Bytes} {k : Keyword} : keyword? n = some k ↔ n = k.word := by
  constructor
  · intro h
    obtain ⟨entry, hfind, rfl⟩ := Option.map_eq_some_iff.1 h
    have hname : entry.1 = n := by simpa using List.find?_some hfind
    have hall : ∀ entry ∈ keywords, entry.1 = entry.2.word := by decide
    rw [← hname, hall entry (List.mem_of_find?_eq_some hfind)]
  · rintro rfl
    cases k <;> decide

theorem spells_of_headKeyword? {d : Datum} {word : Bytes} {k : Keyword}
    (h : headKeyword? d = some (word, k)) : d.Spells k.word := by
  cases d with
  | atom t =>
    rw [headKeyword?] at h
    split at h
    · next hkind =>
      obtain ⟨k', hk, heq⟩ := Option.map_eq_some_iff.1 h
      cases heq
      exact ⟨t, rfl, hkind, keyword?_eq_some.1 hk⟩
    · cases h
  | list => cases h

theorem names_of_symbol {role : String} {d : Datum} {n : Bytes} (h : symbol role d = .ok n) :
    Names d n := by
  cases d with
  | atom t =>
    rw [symbol] at h
    by_cases hkind : t.kind = .ident
    · rw [if_neg (not_not_intro hkind)] at h
      split at h
      · cases h
      · next hreserved =>
        cases h
        exact ⟨⟨t, rfl, hkind, rfl⟩, by simpa using hreserved⟩
    · rw [if_pos hkind] at h
      cases h
  | list => cases h

theorem names_of_parameters {ds : List Datum} {params : List Bytes}
    (h : parameters ds = .ok params) : List.Forall₂ Names ds params := by
  unfold parameters at h
  induction ds generalizing params with
  | nil =>
    cases h
    exact .nil
  | cons d ds ih =>
    rw [List.mapM_cons] at h
    obtain ⟨name, hname, h⟩ := Except.ok_of_bind h
    obtain ⟨rest, hrest, hr⟩ := Except.ok_of_bind h
    cases hr
    exact .cons (names_of_symbol hname) (ih hrest)

theorem accepts_of_checkOperands {form : Datum} {word : Bytes} {range : OperandRange} {n : Nat}
    (h : checkOperands form word range n = .ok ()) : range.accepts n = true := by
  unfold checkOperands at h
  split at h
  · assumption
  · cases h

section
variable {M : Datum → Expr → Prop}

theorem forall₂_ofData {ds : List Datum} {es : List Expr}
    (h : ∀ d ∈ ds, ∀ e, ofDatum d = .ok e → M d e) (hes : ofData ds = .ok es) :
    List.Forall₂ M ds es := by
  induction ds generalizing es with
  | nil =>
    cases hes
    exact .nil
  | cons d ds ih =>
    rw [ofData] at hes
    obtain ⟨e, he, hes⟩ := Except.ok_of_bind hes
    obtain ⟨rest, hrest, hr⟩ := Except.ok_of_bind hes
    cases hr
    exact .cons (h d (.head _) e he) (ih (fun x hx => h x (.tail _ hx)) hrest)

theorem forall₂_ofBindings {ds : List Datum} {bs : List (Binding Expr)}
    (h : ∀ d ∈ ds, ∀ x, Inside x d → ∀ e, ofDatum x = .ok e → M x e)
    (hbs : ofBindings ds = .ok bs) : List.Forall₂ (Binds M) ds bs := by
  induction ds generalizing bs with
  | nil =>
    cases hbs
    exact .nil
  | cons d ds ih =>
    unfold ofBindings at hbs
    split at hbs
    · next heq => cases heq
    · next o first second stop rest heq =>
      cases heq
      obtain ⟨name, hname, hbs⟩ := Except.ok_of_bind hbs
      obtain ⟨value, hvalue, hbs⟩ := Except.ok_of_bind hbs
      obtain ⟨more, hmore, hr⟩ := Except.ok_of_bind hbs
      cases hr
      refine .cons ⟨o, first, second, stop, rfl, names_of_symbol hname, ?_⟩
        (ih (fun x hx => h x (.tail _ hx)) hmore)
      exact h _ (.head _) second (.item (.tail _ (.head _)) .self) value hvalue
    · cases hbs

namespace Compositional

/-- The relation holds of a list if it holds of all that stands in the list. -/
theorem list (hM : Compositional M) {o : Token} {ds : List Datum} {stop : Position}
    (h : ∀ d ∈ ds, ∀ x, Inside x d → ∀ e, ofDatum x = .ok e → M x e) {e : Expr}
    (he : ofDatum (.list o ds stop) = .ok e) : M (.list o ds stop) e := by
  cases ds with
  | nil =>
    cases he
    exact hM.unit
  | cons head ds =>
    have each (d : Datum) (hd : d ∈ ds) : ∀ e, ofDatum d = .ok e → M d e :=
      h d (.tail _ hd) d .self
    rw [ofDatum] at he
    split at he
    · obtain ⟨fn, hfn, he⟩ := Except.ok_of_bind he
      obtain ⟨args, hargs, hr⟩ := Except.ok_of_bind he
      cases hr
      exact hM.call (h head (.head _) head .self fn hfn) (forall₂_ofData each hargs)
    next word k hhead =>
    have hopens := spells_of_headKeyword? hhead
    replace he := Except.ok_of_bind he
    obtain ⟨_, hcheck, he⟩ := he
    have haccepts := accepts_of_checkOperands hcheck
    split at he
    · cases he
    · obtain ⟨name, hname, he⟩ := Except.ok_of_bind he
      obtain ⟨params, hparams, he⟩ := Except.ok_of_bind he
      obtain ⟨body, hbody, hr⟩ := Except.ok_of_bind he
      cases hr
      exact hM.defineFunction hopens (names_of_symbol hname) (names_of_parameters hparams)
        (forall₂_ofData (fun d hd => each d (.tail _ hd)) hbody)
    · next target rest _ _ =>
      obtain ⟨_, hcheck, he⟩ := Except.ok_of_bind he
      obtain ⟨name, hname, he⟩ := Except.ok_of_bind he
      have hlength := accepts_of_checkOperands hcheck
      obtain ⟨value, rfl⟩ : ∃ value, rest = [value] :=
        List.length_eq_one_iff.1 (by
          simp only [OperandRange.accepts, List.length_cons, beq_iff_eq] at hlength
          omega)
      obtain ⟨value, hvalue, hr⟩ := Except.ok_of_bind he
      cases hr
      exact hM.define hopens (names_of_symbol hname) (each _ (.tail _ (.head _)) value hvalue)
    · next target second rest =>
      simp only [operands, OperandRange.accepts, List.length_cons, beq_iff_eq] at haccepts
      obtain rfl := List.eq_nil_of_length_eq_zero (by omega : rest.length = 0)
      obtain ⟨name, hname, he⟩ := Except.ok_of_bind he
      obtain ⟨value, hvalue, hr⟩ := Except.ok_of_bind he
      cases hr
      exact hM.const hopens (names_of_symbol hname) (each _ (.tail _ (.head _)) value hvalue)
    · obtain ⟨params, hparams, he⟩ := Except.ok_of_bind he
      obtain ⟨body, hbody, hr⟩ := Except.ok_of_bind he
      cases hr
      exact hM.lambda hopens (names_of_parameters hparams)
        (forall₂_ofData (fun d hd => each d (.tail _ hd)) hbody)
    · cases he
    · obtain ⟨bs, hbs, he⟩ := Except.ok_of_bind he
      obtain ⟨body, hbody, hr⟩ := Except.ok_of_bind he
      cases hr
      refine hM.letIn hopens (forall₂_ofBindings (fun d hd x hx => ?_) hbs)
        (forall₂_ofData (fun d hd => each d (.tail _ hd)) hbody)
      exact h _ (.tail _ (.head _)) x (.item hd hx)
    · cases he
    · obtain ⟨body, hbody, hr⟩ := Except.ok_of_bind he
      cases hr
      exact hM.block hopens (forall₂_ofData each hbody)
    · obtain ⟨test, htest, he⟩ := Except.ok_of_bind he
      obtain ⟨yes, hyes, hr⟩ := Except.ok_of_bind he
      cases hr
      exact hM.cond hopens (each _ (.head _) test htest) (each _ (.tail _ (.head _)) yes hyes)
    · next d₁ d₂ d₃ rest =>
      simp only [operands, OperandRange.accepts, List.length_cons, Bool.and_eq_true,
        decide_eq_true_eq] at haccepts
      obtain rfl := List.eq_nil_of_length_eq_zero (by omega : rest.length = 0)
      obtain ⟨test, htest, he⟩ := Except.ok_of_bind he
      obtain ⟨yes, hyes, he⟩ := Except.ok_of_bind he
      obtain ⟨no, hno, hr⟩ := Except.ok_of_bind he
      cases hr
      exact hM.condElse hopens (each _ (.head _) test htest) (each _ (.tail _ (.head _)) yes hyes)
        (each _ (.tail _ (.tail _ (.head _))) no hno)
    · obtain ⟨es, hes, hr⟩ := Except.ok_of_bind he
      cases hr
      exact hM.and hopens (forall₂_ofData each hes)
    · obtain ⟨es, hes, hr⟩ := Except.ok_of_bind he
      cases hr
      exact hM.or hopens (forall₂_ofData each hes)
    · obtain ⟨fn, hfn, he⟩ := Except.ok_of_bind he
      obtain ⟨args, hargs, hr⟩ := Except.ok_of_bind he
      cases hr
      exact hM.apply hopens (each _ (.head _) fn hfn)
        (forall₂_ofData (fun d hd => each d (.tail _ hd)) hargs)
    · -- every form has operands enough for one of the cases above
      clear h each he hcheck hhead hopens
      exfalso
      cases k <;> rcases ds with _ | ⟨d₁, _ | ⟨d₂, _ | ⟨d₃, ds⟩⟩⟩ <;>
        grind [operands, OperandRange.accepts]

/-- The relation holds of every datum and the expression that it spells. -/
theorem ofDatum (hM : Compositional M) {d : Datum} {e : Expr} (he : ofDatum d = .ok e) : M d e := by
  have hall : ∀ x, Inside x d → ∀ e, Expr.ofDatum x = .ok e → M x e := by
    clear he
    induction d using Datum.induction with
    | atom t =>
      rintro x ⟨⟩ e he
      rw [Expr.ofDatum] at he
      exact hM.atom he
    | list o items stop ih =>
      intro x hx e he
      cases hx with
      | self => exact hM.list ih he
      | item hd hx => exact ih _ hd x hx e he
  exact hall d .self e he

end Compositional
end

/-- A property `M` of expressions that holds of each form of the language whenever it holds of its
parts, and `N` of the names that it binds. Atoms are tokens with the property `Q`. -/
structure Readable (Q : Token → Prop) (N : Bytes → Prop) (M : Expr → Prop) : Prop where
  atom : ∀ {t e}, Q t → ofAtom t = .ok e → M e
  name : ∀ {t}, Q t → t.kind = .ident → N t.literal
  unit : ∀ {pos}, M (.literal pos .unit)
  call : ∀ {pos fn args}, M fn → (∀ e ∈ args, M e) → M (.call pos fn args)
  apply : ∀ {pos fn args}, M fn → (∀ e ∈ args, M e) → M (.apply pos fn args)
  cond : ∀ {pos test yes no}, M test → M yes → (∀ e, no = some e → M e) →
    M (.cond pos test yes no)
  lambda : ∀ {pos params body}, (∀ n ∈ params, N n) → (∀ e ∈ body, M e) →
    M (.lambda pos [] params body)
  define : ∀ {pos name value}, N name → M value → M (.define pos name value)
  defineFunction : ∀ {pos name place params body}, N name → (∀ n ∈ params, N n) →
    (∀ e ∈ body, M e) → M (.define pos name (.lambda place name params body))
  const : ∀ {pos name value}, N name → M value → M (.const pos name value)
  letIn : ∀ {pos bindings body}, (∀ b ∈ bindings, N b.name ∧ M b.value) → (∀ e ∈ body, M e) →
    M (.letIn pos bindings body)
  block : ∀ {pos body}, (∀ e ∈ body, M e) → M (.block pos body)
  and : ∀ {pos es}, (∀ e ∈ es, M e) → M (.and pos es)
  or : ∀ {pos es}, (∀ e ∈ es, M e) → M (.or pos es)

namespace Readable

variable {Q : Token → Prop} {N : Bytes → Prop} {M : Expr → Prop}

/-- What has a counterpart in a list of data that are made of such tokens has the property. -/
theorem all {α : Type} {R : Datum → α → Prop} {T : α → Prop} {ds : List Datum} {xs : List α}
    (h : List.Forall₂ R ds xs) (hR : ∀ d x, d.Made Q → R d x → T x) (hds : ∀ d ∈ ds, d.Made Q) :
    ∀ x ∈ xs, T x := by
  induction h with
  | nil => simp
  | cons hd _ ih =>
    obtain ⟨hmade, hrest⟩ := List.forall_mem_cons.1 hds
    exact List.forall_mem_cons.2 ⟨hR _ _ hmade hd, ih hrest⟩

theorem names (hM : Readable Q N M) (d : Datum) (n : Bytes) (hd : d.Made Q) (h : Names d n) :
    N n := by
  obtain ⟨⟨t, rfl, hkind, rfl⟩, -⟩ := h
  exact hM.name (Datum.made_atom.1 hd) hkind

theorem binds (hM : Readable Q N M) (d : Datum) (b : Binding Expr) (hd : d.Made Q)
    (h : Binds (fun d e => d.Made Q → M e) d b) : N b.name ∧ M b.value := by
  obtain ⟨o, name, value, stop, rfl, hname, hvalue⟩ := h
  simp only [Datum.made_list, List.forall_mem_cons] at hd
  exact ⟨hM.names _ _ hd.1 hname, hvalue hd.2.1⟩

theorem compositional (hM : Readable Q N M) : Compositional fun d e => d.Made Q → M e where
  atom he hd := hM.atom (Datum.made_atom.1 hd) he
  unit _ := hM.unit
  call hfn hargs hd := by
    simp only [Datum.made_list, List.forall_mem_cons] at hd
    exact hM.call (hfn hd.1) (all hargs (fun _ _ hd h => h hd) hd.2)
  apply _ hfn hargs hd := by
    simp only [Datum.made_list, List.forall_mem_cons] at hd
    exact hM.apply (hfn hd.2.1) (all hargs (fun _ _ hd h => h hd) hd.2.2)
  cond _ htest hyes hd := by
    simp only [Datum.made_list, List.forall_mem_cons] at hd
    exact hM.cond (htest hd.2.1) (hyes hd.2.2.1) nofun
  condElse _ htest hyes hno hd := by
    simp only [Datum.made_list, List.forall_mem_cons] at hd
    refine hM.cond (htest hd.2.1) (hyes hd.2.2.1) ?_
    rintro _ ⟨⟩
    exact hno hd.2.2.2.1
  lambda _ hparams hbody hd := by
    simp only [Datum.made_list, List.forall_mem_cons] at hd
    exact hM.lambda (all hparams hM.names hd.2.1) (all hbody (fun _ _ hd h => h hd) hd.2.2)
  define _ hname hvalue hd := by
    simp only [Datum.made_list, List.forall_mem_cons] at hd
    exact hM.define (hM.names _ _ hd.2.1 hname) (hvalue hd.2.2.1)
  defineFunction _ hname hparams hbody hd := by
    simp only [Datum.made_list, List.forall_mem_cons] at hd
    exact hM.defineFunction (hM.names _ _ hd.2.1.1 hname) (all hparams hM.names hd.2.1.2)
      (all hbody (fun _ _ hd h => h hd) hd.2.2)
  const _ hname hvalue hd := by
    simp only [Datum.made_list, List.forall_mem_cons] at hd
    exact hM.const (hM.names _ _ hd.2.1 hname) (hvalue hd.2.2.1)
  letIn _ hbindings hbody hd := by
    simp only [Datum.made_list, List.forall_mem_cons] at hd
    exact hM.letIn (all hbindings hM.binds hd.2.1) (all hbody (fun _ _ hd h => h hd) hd.2.2)
  block _ hbody hd := by
    simp only [Datum.made_list, List.forall_mem_cons] at hd
    exact hM.block (all hbody (fun _ _ hd h => h hd) hd.2)
  and _ hes hd := by
    simp only [Datum.made_list, List.forall_mem_cons] at hd
    exact hM.and (all hes (fun _ _ hd h => h hd) hd.2)
  or _ hes hd := by
    simp only [Datum.made_list, List.forall_mem_cons] at hd
    exact hM.or (all hes (fun _ _ hd h => h hd) hd.2)

end Readable
end Expr

namespace Program

variable {Q : Token → Prop} {N : Bytes → Prop} {M : Expr → Prop}

theorem readFrom_of_form {limit : Int} {ending : Ending} {found : Nat} {t : Token}
    {rest left : List Token} {d : Datum} {e : Expr} (hfew : ¬ mostFaults ≤ found)
    (hread : Datum.read limit ending (t :: rest) = .ok (d, left)) (he : Expr.ofDatum d = .ok e) :
    readFrom limit ending found (t :: rest) =
      ⟨e :: (readFrom limit ending found left).forms,
        (readFrom limit ending found left).faults⟩ := by
  rw [readFrom, if_neg hfew]
  split
  · next h => cases h.symm.trans hread
  · next h =>
    cases h.symm.trans hread
    rw [he]

/-- Every form is the expression that a datum of the text spells. -/
theorem exists_read_of_mem {limit : Int} {ending : Ending} {found : Nat} {ts : List Token}
    {e : Expr} (h : e ∈ (readFrom limit ending found ts).forms) : ∃ d start left, start <:+ ts ∧
      Datum.read limit ending start = .ok (d, left) ∧ Expr.ofDatum d = .ok e := by
  fun_induction readFrom limit ending found ts with
  | case1 | case2 | case3 | case4 => cases h
  | case5 found t rest _ d left hread f _ p ih =>
    have hleft : left <:+ t :: rest := Datum.suffix_of_read hread
    obtain ⟨d', ts', left', hts', hd'⟩ := ih h
    exact ⟨d', ts', left', hts'.trans hleft, hd'⟩
  | case6 found t rest _ d left hread e' he' p ih =>
    have hleft : left <:+ t :: rest := Datum.suffix_of_read hread
    rcases List.mem_cons.1 h with rfl | h
    · exact ⟨d, _, left, List.suffix_rfl, hread, he'⟩
    · obtain ⟨d', ts', left', hts', hd'⟩ := ih h
      exact ⟨d', ts', left', hts'.trans hleft, hd'⟩

theorem readFrom_all (hM : Expr.Readable Q N M) {limit : Int} {ending : Ending} {found : Nat}
    {ts : List Token} (hts : ∀ t ∈ ts, t.IsAtom → Q t) :
    ∀ e ∈ (readFrom limit ending found ts).forms, M e := by
  intro e he
  obtain ⟨d, start, left, hstart, hread, hd⟩ := exists_read_of_mem he
  exact hM.compositional.ofDatum hd (Datum.made_of_read (fun t ht => hts t (hstart.subset ht)) hread)

/-- Such a property holds of all forms of a text whose tokens are as they should be. -/
theorem read_all (hM : Expr.Readable Q N M) {options : ReadOptions} {source : Bytes}
    (hts : ∀ t ∈ (Token.scan options.filename source).list, t.IsAtom → Q t) :
    ∀ e ∈ (read options source).forms, M e :=
  readFrom_all hM hts

end Program
end StackLisp
