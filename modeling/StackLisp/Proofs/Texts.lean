import StackLisp.Proofs.Reading
import StackLisp.Proofs.Records
import StackLisp.Proofs.ValidText

/-! The texts in expressions. Those that are read from a text are the names and the strings of its
tokens. Strings are always valid; names are, if the text is. -/
namespace StackLisp

namespace Token

open Text (Glyph Encoded isValid)

theorem classify_ne_string (atom : Bytes) : classify atom ≠ .string := by
  unfold classify
  dsimp only
  split
  · simp
  · split
    · simp
    · split <;> simp

/-- Strings are written anew, character by character. -/
theorem isValid_string (file text : Bytes) :
    ∀ t ∈ (scan file text).list, t.kind = .string → isValid t.literal = true := by
  refine scanFrom_all fun _ _ ht hkind => ?_
  rcases (scanToken_cases ht).2.2.2 with ⟨hsingle, -⟩ | ⟨-, cs, hliteral, -⟩ | ⟨hchar, -⟩ |
      ⟨hatom, -⟩
  · rw [hkind] at hsingle
    simp at hsingle
  · rw [hliteral]
    exact Text.isValid_flatMap fun c _ => Text.encoded_encodeChar c
  · rw [hkind] at hchar
    cases hchar
  · rw [hkind] at hatom
    exact absurd hatom.symm (classify_ne_string _)

/-- Names keep their bytes. -/
theorem isValid_ident (file : Bytes) {text : Bytes} (h : isValid text = true) :
    ∀ t ∈ (scan file text).list, t.kind = .ident → isValid t.literal = true := by
  have hglyphs : ∀ g ∈ Text.glyphs text, Encoded g.bytes := by
    intro g hg
    have hgood := List.all_eq_true.1 h g hg
    obtain ⟨b, rest, rfl⟩ := Text.exists_firstGlyph hg
    exact Text.encoded_firstGlyph (by simpa using hgood)
  refine scanFrom_all fun {g gs _ _ _ _} hahead _ ht hkind => ?_
  rcases (scanToken_cases ht).2.2.2 with ⟨hsingle, -⟩ | ⟨hstring, -⟩ | ⟨hchar, -⟩ |
      ⟨-, -, taken, hgs, hliteral, -⟩
  · rw [hkind] at hsingle
    simp at hsingle
  · rw [hkind] at hstring
    cases hstring
  · rw [hkind] at hchar
    cases hchar
  · have htaken : g :: taken ⊆ g :: gs := by
      rw [hgs]
      exact List.cons_subset_cons g (List.subset_append_left _ _)
    rw [hliteral]
    exact Text.isValid_flatMap fun g' hg' => hglyphs g' (hahead.suffix.subset (htaken hg'))

end Token

namespace Expr

/-- The texts of an expression without those of its parts. -/
def ownTexts : Expr → List Bytes
  | literal _ v => [v.text]
  | ident _ name => [name]
  | lambda _ name params _ => name :: params
  | define _ name _ | const _ name _ => [name]
  | letIn _ bindings _ => bindings.map Binding.name
  | _ => []

/-- All texts of an expression have the property `P`. -/
inductive Texts (P : Bytes → Prop) : Expr → Prop where
  | intro {e} : (∀ t ∈ e.ownTexts, P t) → (∀ x ∈ e.children, Texts P x) → Texts P e

variable {P : Bytes → Prop}

theorem texts_iff {e : Expr} :
    e.Texts P ↔ (∀ t ∈ e.ownTexts, P t) ∧ ∀ x ∈ e.children, x.Texts P := by
  constructor
  · rintro ⟨hown, hchildren⟩
    exact ⟨hown, hchildren⟩
  · rintro ⟨hown, hchildren⟩
    exact .intro hown hchildren

section
variable {pos : Position} {name : Bytes} {params : List Bytes} {fn value : Expr} {es : List Expr}

theorem texts_literal {v : Value} : (literal pos v).Texts P ↔ P v.text :=
  texts_iff.trans ⟨fun h => List.forall_mem_singleton.1 h.1,
    fun h => ⟨List.forall_mem_singleton.2 h, List.forall_mem_nil _⟩⟩

theorem texts_ident : (ident pos name).Texts P ↔ P name :=
  texts_iff.trans ⟨fun h => List.forall_mem_singleton.1 h.1,
    fun h => ⟨List.forall_mem_singleton.2 h, List.forall_mem_nil _⟩⟩

theorem texts_call : (call pos fn es).Texts P ↔ fn.Texts P ∧ ∀ e ∈ es, e.Texts P :=
  texts_iff.trans ⟨fun h => List.forall_mem_cons.1 h.2,
    fun h => ⟨List.forall_mem_nil _, List.forall_mem_cons.2 h⟩⟩

theorem texts_apply : (apply pos fn es).Texts P ↔ fn.Texts P ∧ ∀ e ∈ es, e.Texts P :=
  texts_iff.trans ⟨fun h => List.forall_mem_cons.1 h.2,
    fun h => ⟨List.forall_mem_nil _, List.forall_mem_cons.2 h⟩⟩

theorem texts_cond {test yes : Expr} {no : Option Expr} :
    (cond pos test yes no).Texts P ↔
      test.Texts P ∧ yes.Texts P ∧ ∀ e, no = some e → e.Texts P := by
  refine texts_iff.trans ⟨fun h => ?_, fun h => ⟨List.forall_mem_nil _, ?_⟩⟩
  · obtain ⟨htest, hrest⟩ := List.forall_mem_cons.1 h.2
    obtain ⟨hyes, hno⟩ := List.forall_mem_cons.1 hrest
    exact ⟨htest, hyes, fun e he => hno e (Option.mem_toList.2 he)⟩
  · refine List.forall_mem_cons.2 ⟨h.1, List.forall_mem_cons.2 ⟨h.2.1, fun e he => ?_⟩⟩
    exact h.2.2 e (Option.mem_toList.1 he)

theorem texts_lambda : (lambda pos name params es).Texts P ↔
    (P name ∧ ∀ n ∈ params, P n) ∧ ∀ e ∈ es, e.Texts P :=
  texts_iff.trans (and_congr_left fun _ => List.forall_mem_cons)

theorem texts_define : (define pos name value).Texts P ↔ P name ∧ value.Texts P :=
  texts_iff.trans (and_congr List.forall_mem_singleton List.forall_mem_singleton)

theorem texts_const : (const pos name value).Texts P ↔ P name ∧ value.Texts P :=
  texts_iff.trans (and_congr List.forall_mem_singleton List.forall_mem_singleton)

theorem texts_letIn {bindings : List (Binding Expr)} : (letIn pos bindings es).Texts P ↔
    (∀ b ∈ bindings, P b.name) ∧ (∀ b ∈ bindings, b.value.Texts P) ∧ ∀ e ∈ es, e.Texts P :=
  texts_iff.trans (and_congr List.forall_mem_map
    (List.forall_mem_append.trans (and_congr_left fun _ => List.forall_mem_map)))

theorem texts_block : (block pos es).Texts P ↔ ∀ e ∈ es, e.Texts P :=
  texts_iff.trans ⟨And.right, fun h => ⟨List.forall_mem_nil _, h⟩⟩

theorem texts_and : (and pos es).Texts P ↔ ∀ e ∈ es, e.Texts P :=
  texts_iff.trans ⟨And.right, fun h => ⟨List.forall_mem_nil _, h⟩⟩

theorem texts_or : (or pos es).Texts P ↔ ∀ e ∈ es, e.Texts P :=
  texts_iff.trans ⟨And.right, fun h => ⟨List.forall_mem_nil _, h⟩⟩

end

theorem texts_ofAtom (hnil : P []) {t : Token} {e : Expr} (hatom : t.IsAtom)
    (ht : t.kind = .string ∨ t.kind = .ident → P t.literal) (h : ofAtom t = .ok e) :
    e.Texts P := by
  unfold ofAtom at h
  split at h
  · cases hr : Number.readInt t.literal <;> rw [hr] at h <;> cases h
    exact texts_literal.2 hnil
  · cases hr : Number.readFloat t.literal <;> rw [hr] at h <;> cases h
    exact texts_literal.2 hnil
  · next hkind =>
    cases h
    exact texts_literal.2 (ht (.inl hkind))
  · cases h
    exact texts_literal.2 hnil
  · next hint hfloat hstring hchar =>
    have hkind : t.kind = .ident := by
      obtain ⟨hopening, hquote, hclosing⟩ := hatom
      cases hk : t.kind <;> simp_all
    split at h
    · cases h
      exact texts_literal.2 hnil
    · split at h
      · cases h
        exact texts_literal.2 hnil
      · split at h
        · cases h
        · cases h
          exact texts_ident.2 (ht (.inr hkind))

theorem Texts.readable (hnil : P []) :
    Readable (fun t => t.IsAtom ∧ (t.kind = .string ∨ t.kind = .ident → P t.literal)) P
      (Texts P) where
  atom ht h := texts_ofAtom hnil ht.1 ht.2 h
  name ht hkind := ht.2 (.inr hkind)
  unit := texts_literal.2 hnil
  call hfn hargs := texts_call.2 ⟨hfn, hargs⟩
  apply hfn hargs := texts_apply.2 ⟨hfn, hargs⟩
  cond htest hyes hno := texts_cond.2 ⟨htest, hyes, hno⟩
  lambda hparams hbody := texts_lambda.2 ⟨⟨hnil, hparams⟩, hbody⟩
  define hname hvalue := texts_define.2 ⟨hname, hvalue⟩
  defineFunction hname hparams hbody :=
    texts_define.2 ⟨hname, texts_lambda.2 ⟨⟨hname, hparams⟩, hbody⟩⟩
  const hname hvalue := texts_const.2 ⟨hname, hvalue⟩
  letIn hbindings hbody :=
    texts_letIn.2 ⟨fun b hb => (hbindings b hb).1, fun b hb => (hbindings b hb).2, hbody⟩
  block := texts_block.2
  and := texts_and.2
  or := texts_or.2

end Expr

/-- The texts in what is read are the strings and the names of the tokens. -/
theorem Program.read_texts {P : Bytes → Prop} (hnil : P []) {options : ReadOptions}
    {source : Bytes} (h : ∀ t ∈ (Token.scan options.filename source).list,
      t.kind = .string ∨ t.kind = .ident → P t.literal) :
    ∀ e ∈ (read options source).forms, e.Texts P :=
  read_all (Expr.Texts.readable hnil) fun t ht hatom => ⟨hatom, h t ht⟩

end StackLisp
