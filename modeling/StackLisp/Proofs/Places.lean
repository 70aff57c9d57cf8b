import StackLisp.Expr.Walk
import StackLisp.Proofs.Reading
import StackLisp.Proofs.ValidText

/-! Where expressions stand, and how much a text can hold. The parts of what is read stand where
tokens start, no two at the same token and in the order of the tokens. -/
namespace StackLisp

open scoped List

namespace Expr

/-- The places of an expression and of all its parts, in the order of the source. -/
def places (e : Expr) : List Position := (e.visited fun _ => true).map pos

theorem visitedAll_eq (enter : Kind → Bool) (es : List Expr) :
    visitedAll enter es = es.flatMap (visited enter) := by
  induction es with
  | nil => rfl
  | cons e es ih => rw [visitedAll, ih, List.flatMap_cons]

theorem visitedBindings_eq (enter : Kind → Bool) (bs : List (Binding Expr)) :
    visitedBindings enter bs = (bs.map Binding.value).flatMap (visited enter) := by
  induction bs with
  | nil => rfl
  | cons b bs ih => rw [visitedBindings, ih, List.map_cons, List.flatMap_cons]

theorem places_eq (e : Expr) : e.places = e.pos :: e.children.flatMap places := by
  have hall (es : List Expr) : (es.flatMap (visited fun _ => true)).map pos = es.flatMap places :=
    List.map_flatMap
  cases e with
  | cond pos test yes no => cases no <;> simp [places, visited, children, Expr.pos]
  | _ => simp [places, visited, visitedAll_eq, visitedBindings_eq, hall, children, Expr.pos]

section
variable {pos : Position} {name : Bytes} {params : List Bytes} {fn value : Expr} {es : List Expr}

@[simp] theorem places_literal {v : Value} : (literal pos v).places = [pos] := places_eq _

@[simp] theorem places_ident : (ident pos name).places = [pos] := places_eq _

@[simp] theorem places_call : (call pos fn es).places = pos :: (fn.places ++ es.flatMap places) :=
  places_eq _

@[simp] theorem places_apply :
    (apply pos fn es).places = pos :: (fn.places ++ es.flatMap places) :=
  places_eq _

@[simp] theorem places_cond {test yes : Expr} {no : Option Expr} :
    (cond pos test yes no).places =
      pos :: (test.places ++ (yes.places ++ no.toList.flatMap places)) :=
  places_eq _

@[simp] theorem places_lambda : (lambda pos name params es).places = pos :: es.flatMap places :=
  places_eq _

@[simp] theorem places_define : (define pos name value).places = pos :: value.places := by
  rw [places_eq]
  exact congrArg _ (List.flatMap_singleton _ _)

@[simp] theorem places_const : (const pos name value).places = pos :: value.places := by
  rw [places_eq]
  exact congrArg _ (List.flatMap_singleton _ _)

@[simp] theorem places_letIn {bindings : List (Binding Expr)} : (letIn pos bindings es).places =
    pos :: ((bindings.map Binding.value).flatMap places ++ es.flatMap places) := by
  rw [places_eq]
  exact congrArg _ List.flatMap_append

@[simp] theorem places_block : (block pos es).places = pos :: es.flatMap places := places_eq _

@[simp] theorem places_and : (and pos es).places = pos :: es.flatMap places := places_eq _

@[simp] theorem places_or : (or pos es).places = pos :: es.flatMap places := places_eq _

end

theorem places_ofAtom {t : Token} {e : Expr} (h : ofAtom t = .ok e) : e.places = [t.start] := by
  unfold ofAtom at h
  split at h
  · cases hr : Number.readInt t.literal <;> rw [hr] at h <;> cases h
    rfl
  · cases hr : Number.readFloat t.literal <;> rw [hr] at h <;> cases h
    rfl
  · cases h
    rfl
  · cases h
    rfl
  · split at h
    · cases h
      rfl
    · split at h
      · cases h
        rfl
      · split at h
        · cases h
        · cases h
          rfl

end Expr

namespace Datum

mutual
/-- The tokens of a datum, without the closing parentheses. -/
def tokens : Datum → List Token
  | .atom t => [t]
  | .list o items _ => o :: tokensAll items
termination_by structural d => d

def tokensAll : List Datum → List Token
  | [] => []
  | d :: ds => tokens d ++ tokensAll ds
termination_by structural ds => ds
end

theorem tokens_list (o : Token) (items : List Datum) (stop : Position) :
    tokens (.list o items stop) = o :: items.flatMap tokens := by
  have hall : tokensAll items = items.flatMap tokens := by
    induction items with
    | nil => rfl
    | cons d ds ih => rw [tokensAll, ih, List.flatMap_cons]
  rw [tokens, hall]

/-- The places where the tokens of a datum start. -/
def starts (d : Datum) : List Position := d.tokens.map Token.start

theorem starts_list (o : Token) (items : List Datum) (stop : Position) :
    starts (.list o items stop) = o.start :: items.flatMap starts := by
  rw [starts, tokens_list, List.map_cons, List.map_flatMap]
  rfl

theorem sublist_form {ps : List Position} {ds : List Datum} (h : ps <+ ds.flatMap starts)
    (o : Token) (k : Datum) (stop : Position) :
    o.start :: ps <+ (list o (k :: ds) stop).starts := by
  rw [starts_list, List.flatMap_cons]
  exact (h.trans (List.sublist_append_right _ _)).cons_cons _

/-- The tokens of lists that are still open. -/
def pending : List Level → List Token
  | [] => []
  | l :: outer => pending outer ++ l.opening :: l.items.reverse.flatMap tokens

/-- The tokens of a datum stand in the text in their order, before those that are left. -/
theorem readWithin_tokens {limit : Int} {ending : Ending} {levels : List Level}
    {ts left : List Token} {d : Datum} (h : readWithin limit ending levels ts = .ok (d, left)) :
    d.tokens ++ left <+ pending levels ++ ts := by
  fun_induction readWithin limit ending levels ts with
  | case1 | case2 | case4 | case5 => cases h
  | case3 levels t rest _ _ ih => simpa [pending] using ih h
  | case6 t rest _ l =>
    obtain ⟨rfl, rfl⟩ := passed_eq h
    rw [tokens_list]
    exact (List.sublist_cons_self t _).append_left _
  | case7 t rest _ l closed m outer ih =>
    refine (ih h).trans ?_
    simp only [pending, closed, List.reverse_cons, List.flatMap_append, List.flatMap_cons,
      List.flatMap_nil, tokens_list, List.append_nil, List.append_assoc, List.cons_append]
    refine List.Sublist.append_left (.cons_cons _ (List.Sublist.append_left (.cons_cons _ ?_) _)) _
    exact (List.sublist_cons_self t rest).append_left _
  | case8 t rest =>
    obtain ⟨rfl, rfl⟩ := passed_eq h
    exact List.Sublist.refl _
  | case9 t rest l outer _ _ _ ih => simpa [pending, tokens] using ih h

end Datum

namespace Expr

open Datum (starts sublist_form)

/-- The parts of an expression stand where tokens of its datum start. -/
def StandsIn (d : Datum) (e : Expr) : Prop := e.places <+ d.starts

theorem StandsIn.behind {d : Datum} {e : Expr} (h : StandsIn d e) (name : Datum)
    (more : List Datum) : e.places <+ (name :: d :: more).flatMap starts := by
  rw [List.flatMap_cons, List.flatMap_cons]
  exact (h.trans (List.sublist_append_left _ _)).trans (List.sublist_append_right _ _)

theorem StandsIn.all {ds : List Datum} {es : List Expr} (h : List.Forall₂ StandsIn ds es) :
    es.flatMap places <+ ds.flatMap starts := by
  induction h with
  | nil => exact List.Sublist.refl _
  | cons hd _ ih => exact hd.append ih

theorem StandsIn.bindings {ds : List Datum} {bs : List (Binding Expr)}
    (h : List.Forall₂ (Binds StandsIn) ds bs) :
    (bs.map Binding.value).flatMap places <+ ds.flatMap starts := by
  induction h with
  | nil => exact List.Sublist.refl _
  | cons hd _ ih =>
    obtain ⟨o, name, value, stop, rfl, -, hvalue⟩ := hd
    refine List.Sublist.append ?_ ih
    have hlist : value.starts <+ [value].flatMap starts := by simp
    exact hvalue.trans ((List.sublist_cons_self _ _).trans (sublist_form hlist o name stop))

theorem StandsIn.compositional : Compositional StandsIn where
  atom he := by
    rw [StandsIn, places_ofAtom he]
    exact List.Sublist.refl _
  unit {o stop} := by
    rw [StandsIn, places_literal, Datum.starts_list]
    exact (List.nil_sublist _).cons_cons _
  call hfn hargs := by
    rw [StandsIn, places_call, Datum.starts_list]
    exact (hfn.append (all hargs)).cons_cons _
  apply _ hfn hargs := by
    rw [StandsIn, places_apply]
    exact sublist_form (hfn.append (all hargs)) _ _ _
  cond _ htest hyes := by
    rw [StandsIn, places_cond]
    exact sublist_form (htest.append (hyes.append (List.Sublist.refl []))) _ _ _
  condElse _ htest hyes hno := by
    rw [StandsIn, places_cond]
    exact sublist_form (htest.append (hyes.append (hno.append (List.nil_sublist _)))) _ _ _
  lambda _ _ hbody := by
    rw [StandsIn, places_lambda]
    exact sublist_form ((all hbody).trans (List.sublist_append_right _ _)) _ _ _
  define _ _ hvalue := by
    rw [StandsIn, places_define]
    exact sublist_form (hvalue.behind _ _) _ _ _
  defineFunction _ _ _ hbody := by
    rw [StandsIn, places_define, places_lambda]
    refine sublist_form ?_ _ _ _
    rw [List.flatMap_cons, Datum.starts_list]
    exact ((all hbody).trans (List.sublist_append_right _ _)).cons_cons _
  const _ _ hvalue := by
    rw [StandsIn, places_const]
    exact sublist_form (hvalue.behind _ _) _ _ _
  letIn _ hbindings hbody := by
    rw [StandsIn, places_letIn]
    refine sublist_form ?_ _ _ _
    rw [List.flatMap_cons, Datum.starts_list]
    exact ((bindings hbindings).append (all hbody)).cons _
  block _ hbody := by
    rw [StandsIn, places_block]
    exact sublist_form (all hbody) _ _ _
  and _ hes := by
    rw [StandsIn, places_and]
    exact sublist_form (all hes) _ _ _
  or _ hes := by
    rw [StandsIn, places_or]
    exact sublist_form (all hes) _ _ _

end Expr

theorem Program.readFrom_places {limit : Int} {ending : Ending} {found : Nat} {ts : List Token} :
    (readFrom limit ending found ts).forms.flatMap Expr.places <+ ts.map Token.start := by
  fun_induction readFrom limit ending found ts with
  | case1 | case2 | case3 | case4 => simp
  | case5 found t rest _ d left hread f _ p ih =>
    have htokens := (List.sublist_append_right d.tokens left).trans (Datum.readWithin_tokens hread)
    exact ih.trans (htokens.map _)
  | case6 found t rest _ d left hread e he p ih =>
    have hplaces : e.places <+ d.starts := Expr.StandsIn.compositional.ofDatum he
    have htokens := (Datum.readWithin_tokens hread).map Token.start
    rw [List.map_append] at htokens
    exact (hplaces.append ih).trans htokens

/-- The parts of all forms stand where tokens start. -/
theorem Program.read_places (options : ReadOptions) (source : Bytes) :
    (read options source).forms.flatMap Expr.places <+
      (Token.scan options.filename source).list.map Token.start :=
  readFrom_places

/-! ### How much a text can hold -/

namespace Text

theorem length_glyphsFrom_le (skip : Nat) (text : Bytes) :
    (glyphsFrom skip text).length ≤ text.length := by
  fun_induction glyphsFrom skip text with
  | case1 => exact Nat.le_refl _
  | case2 skip b rest ih => exact Nat.le_succ_of_le ih
  | case3 b rest g ih => exact Nat.succ_le_succ ih

theorem length_bytes_le (b : UInt8) (rest : Bytes) : (firstGlyph b rest).bytes.length ≤ 4 := by
  unfold firstGlyph
  split
  · simp
  · split <;> try split
    all_goals simp

theorem Encoded.length_le {bs : Bytes} (h : Encoded bs) : bs.length ≤ 4 := by
  cases h <;> simp

theorem length_flatMap_le {α : Type} {f : α → Bytes} {n : Nat} {l : List α}
    (h : ∀ a ∈ l, (f a).length ≤ n) : (l.flatMap f).length ≤ n * l.length := by
  induction l with
  | nil => simp
  | cons a l ih =>
    obtain ⟨ha, hl⟩ := List.forall_mem_cons.1 h
    have hrest := ih hl
    rw [List.flatMap_cons, List.length_append, List.length_cons, Nat.mul_succ]
    omega

end Text

/-- The place lies in the first `n` lines and columns. -/
def Position.Within (n : Nat) (p : Position) : Prop :=
  (0 ≤ p.line ∧ p.line ≤ n) ∧ 0 ≤ p.column ∧ p.column ≤ n

namespace Token

open Text (Glyph)

theorem length_scanFrom_le (gs : List Glyph) (p : Position) :
    (scanFrom gs p).list.length ≤ gs.length := by
  fun_induction scanFrom gs p with
  | case1 | case2 => simp
  | case3 gs p g rest q hb t rest' q' ht ts ih =>
    have hblank := length_skipBlank false gs p
    have hrest := length_scanToken ht
    have hmore : ts.list.length ≤ rest'.length := ih
    rw [hb, List.length_cons] at hblank
    rw [List.length_cons]
    omega

theorem length_scan_le (file text : Bytes) : (scan file text).list.length ≤ text.length :=
  Nat.le_trans (length_scanFrom_le _ _) (Text.length_glyphsFrom_le 0 text)

/-- Each character that is passed adds one to the line or to the column at most. -/
theorem Ahead.within {gs rest : List Glyph} {p q : Position} (h : Ahead gs p rest q) {n : Nat}
    (hp : (0 ≤ p.line ∧ p.line + gs.length ≤ n) ∧ 0 ≤ p.column ∧ p.column + gs.length ≤ n) :
    (0 ≤ q.line ∧ q.line + rest.length ≤ n) ∧ 0 ≤ q.column ∧ q.column + rest.length ≤ n := by
  induction h with
  | here => exact hp
  | @next g rest q _ ih =>
    rw [List.length_cons] at ih
    unfold Position.after
    split <;> dsimp only <;> omega

theorem within_start (file text : Bytes) :
    ∀ t ∈ (scan file text).list, t.start.Within text.length := by
  refine scanFrom_all fun hahead _ ht => ?_
  have hlen := Text.length_glyphsFrom_le 0 text
  have hwithin := hahead.within (n := text.length) (by simp; exact hlen)
  rw [(scanToken_cases ht).2.1]
  rw [List.length_cons] at hwithin
  unfold Position.Within
  omega

theorem length_literal_le (file text : Bytes) :
    ∀ t ∈ (scan file text).list, t.kind ≠ .char → t.literal.length ≤ 4 * text.length := by
  refine scanFrom_all fun {g rest _ t _ _} hahead _ ht hkind => ?_
  have hsuffix := hahead.suffix
  have hlen := Nat.le_trans hsuffix.length_le (Text.length_glyphsFrom_le 0 text)
  have hbytes : ∀ g' ∈ g :: rest, g'.bytes.length ≤ 4 := by
    intro g' hg'
    obtain ⟨b, tail, rfl⟩ := Text.exists_firstGlyph (hsuffix.subset hg')
    exact Text.length_bytes_le b tail
  rw [List.length_cons] at hlen
  rcases (scanToken_cases ht).2.2.2 with ⟨-, hliteral, -⟩ | ⟨-, cs, hliteral, hcs⟩ | ⟨hchar, -⟩ |
      ⟨-, -, taken, rfl, hliteral, -⟩
  · have hg := hbytes g List.mem_cons_self
    rw [hliteral]
    omega
  · have hstring : t.literal.length ≤ 4 * cs.length := by
      rw [hliteral]
      exact Text.length_flatMap_le fun c _ => (Text.encoded_encodeChar c).length_le
    omega
  · exact absurd hchar hkind
  · have hatom : t.literal.length ≤ 4 * (g :: taken).length := by
      rw [hliteral]
      exact Text.length_flatMap_le fun g' hg' => hbytes g' (List.mem_append_left _ hg')
    rw [List.length_cons] at hatom
    rw [List.length_append] at hlen
    omega

end Token
end StackLisp
