import StackLisp.Proofs.Reading
import StackLisp.Proofs.ValidText

/-! What can be written in a text: names are not empty, and only a definition names a function. -/
namespace StackLisp

namespace Text

theorem bytes_firstGlyph_ne_nil (b : UInt8) (rest : Bytes) : (firstGlyph b rest).bytes ≠ [] := by
  unfold firstGlyph
  split
  · simp
  · split <;> try split
    all_goals simp

end Text

namespace Token

open Text (Glyph)

/-- Only strings and characters may stand for no bytes. -/
def Solid (t : Token) : Prop := t.kind ≠ .string → t.kind ≠ .char → t.literal ≠ []

theorem scanToken_solid {g : Glyph} {gs rest : List Glyph} {p q : Position} {t : Token}
    (hg : g.bytes ≠ []) (h : scanToken g gs p = .ok (t, rest, q)) : t.Solid := by
  intro hstring hchar
  rcases (scanToken_cases h).2.2.2 with ⟨-, hliteral, -⟩ | ⟨hkind, -⟩ | ⟨hkind, -⟩ |
      ⟨-, -, taken, -, hliteral, -⟩
  · rw [hliteral]
    exact hg
  · exact absurd hkind hstring
  · exact absurd hkind hchar
  · rw [hliteral, List.flatMap_cons]
    simp [hg]

theorem scan_solid (file text : Bytes) : ∀ t ∈ (scan file text).list, t.Solid := by
  refine scanFrom_all fun hahead _ ht => scanToken_solid ?_ ht
  obtain ⟨b, rest, rfl⟩ := Text.exists_firstGlyph (hahead.suffix.subset (.head _))
  exact Text.bytes_firstGlyph_ne_nil b rest

end Token

namespace Expr

/-- What can be written. A function has a name only where it is the value of its definition. -/
inductive Spelled : Expr → Prop where
  | literal {pos v} : Spelled (.literal pos v)
  | ident {pos n} : n ≠ [] → Spelled (.ident pos n)
  | call {pos fn args} : Spelled fn → (∀ e ∈ args, Spelled e) → Spelled (.call pos fn args)
  | apply {pos fn args} : Spelled fn → (∀ e ∈ args, Spelled e) → Spelled (.apply pos fn args)
  | cond {pos test yes no} : Spelled test → Spelled yes → (∀ e, no = some e → Spelled e) →
      Spelled (.cond pos test yes no)
  | lambda {pos params body} : (∀ e ∈ body, Spelled e) → Spelled (.lambda pos [] params body)
  | define {pos name value} : Spelled value → Spelled (.define pos name value)
  | defineFunction {pos name place params body} : (∀ e ∈ body, Spelled e) →
      Spelled (.define pos name (.lambda place name params body))
  | const {pos name value} : Spelled value → Spelled (.const pos name value)
  | letIn {pos bindings body} : (∀ b ∈ bindings, Spelled b.value) → (∀ e ∈ body, Spelled e) →
      Spelled (.letIn pos bindings body)
  | block {pos body} : (∀ e ∈ body, Spelled e) → Spelled (.block pos body)
  | and {pos es} : (∀ e ∈ es, Spelled e) → Spelled (.and pos es)
  | or {pos es} : (∀ e ∈ es, Spelled e) → Spelled (.or pos es)

theorem spelled_ofAtom {t : Token} {e : Expr} (ht : t.Solid) (h : ofAtom t = .ok e) :
    e.Spelled := by
  unfold ofAtom at h
  split at h
  · cases hr : Number.readInt t.literal <;> rw [hr] at h <;> cases h
    exact .literal
  · cases hr : Number.readFloat t.literal <;> rw [hr] at h <;> cases h
    exact .literal
  · cases h
    exact .literal
  · cases h
    exact .literal
  · next hstring hchar =>
    split at h
    · cases h
      exact .literal
    · split at h
      · cases h
        exact .literal
      · split at h
        · cases h
        · cases h
          exact .ident (ht hstring hchar)

theorem Spelled.readable : Readable Token.Solid (fun _ => True) Spelled where
  atom := spelled_ofAtom
  name _ _ := trivial
  unit := .literal
  call := .call
  apply := .apply
  cond := .cond
  lambda _ hbody := .lambda hbody
  define _ hvalue := .define hvalue
  defineFunction _ _ hbody := .defineFunction hbody
  const _ hvalue := .const hvalue
  letIn hbindings hbody := .letIn (fun b hb => (hbindings b hb).2) hbody
  block := .block
  and := .and
  or := .or

end Expr

/-- All forms that are read from a text can be written. -/
theorem Program.read_spelled (options : ReadOptions) (source : Bytes) :
    ∀ e ∈ (read options source).forms, e.Spelled :=
  read_all Expr.Spelled.readable fun t ht _ => Token.scan_solid _ _ t ht

end StackLisp
