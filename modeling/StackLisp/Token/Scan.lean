import StackLisp.Text.Blank
import StackLisp.Token
import StackLisp.Value

/-! Scanning of text into tokens. -/
namespace StackLisp.Token

open Text (Glyph isBlank encodeChar)

/-- Passes over white space and over comments, which run from a semicolon to the end of the line. -/
def skipBlank : Bool → List Glyph → Position → List Glyph × Position
  | _, [], p => ([], p)
  | true, g :: gs, p => skipBlank (g.char != '\n') gs (p.after g)
  | false, g :: gs, p =>
    if g.char = ';' then skipBlank true gs (p.after g)
    else if isBlank g.char then skipBlank false gs (p.after g)
    else (g :: gs, p)

def isDelimiter (c : Char) : Bool :=
  isBlank c || c == '(' || c == ')' || c == '"' || c == ';' || c == '\''

/-- The bytes up to the next delimiter. -/
def spanAtom : List Glyph → Position → Bytes × List Glyph × Position
  | [], p => ([], [], p)
  | g :: gs, p =>
    if isDelimiter g.char then ([], g :: gs, p)
    else
      let (taken, rest, q) := spanAtom gs (p.after g)
      (g.bytes ++ taken, rest, q)

def isSign (b : UInt8) : Bool := b = 43 || b = 45

/-- A number starts with a digit, after at most one sign; a point or an exponent makes it a
float. -/
def classify (atom : Bytes) : TokenKind :=
  let digits := atom.dropWhile isSign
  match digits with
  | [] => .ident
  | d :: _ =>
    if atom.length > digits.length + 1 || !Text.isDigit d then .ident
    else if digits.any fun b => b = 46 || b = 101 || b = 69 then .float
    else .int

def escapeValue : Char → Option Char
  | 'n' => some '\n'
  | 't' => some '\t'
  | 'r' => some '\r'
  | '0' => some '\x00'
  | '\\' => some '\\'
  | '"' => some '"'
  | '\'' => some '\''
  | _ => none

/-- The text of a string up to its closing quote; `start` is the place of the opening quote. -/
def scanString (start : Position) :
    List Glyph → Position → Except LocatedFault (Bytes × List Glyph × Position)
  | [], p => .error ⟨.unterminatedString, start, p⟩
  | g :: gs, p =>
    if g.char = '"' then .ok ([], gs, p.after g)
    else if g.char = '\\' then
      match gs with
      | [] => .error ⟨.unterminatedString, start, p.after g⟩
      | e :: rest =>
        match escapeValue e.char with
        | none => .error ⟨.unknownEscape e.char, p, (p.after g).after e⟩
        | some c => do
          let (text, out) ← scanString start rest ((p.after g).after e)
          return (encodeChar c ++ text, out)
    else do
      let (text, out) ← scanString start gs (p.after g)
      return (encodeChar g.char ++ text, out)

/-- A character: a backslash and the character itself, or its name; `p` is behind the hash. -/
def scanCharacter (start : Position) :
    List Glyph → Position → Except LocatedFault (Bytes × List Glyph × Position)
  | [], p => .error ⟨.strayHash, start, p⟩
  | g :: gs, p =>
    if g.char ≠ '\\' then .error ⟨.strayHash, start, p⟩
    else match gs with
      | [] => .error ⟨.incompleteCharacter, start, p.after g⟩
      | c :: rest =>
        let (tail, out, q) := spanAtom rest ((p.after g).after c)
        if tail = [] then .ok (encodeChar c.char, out, q)
        else
          let name := encodeChar c.char ++ tail
          match Value.characterNames.find? fun (word, _) => word = name with
          | some (_, d) => .ok (encodeChar d, out, q)
          | none => .error ⟨.unknownCharacter name, start, q⟩

/-- The token that starts with `g` at `p`. -/
def scanToken (g : Glyph) (gs : List Glyph) (p : Position) :
    Except LocatedFault (Token × List Glyph × Position) :=
  let single (kind : TokenKind) : Token × List Glyph × Position :=
    (⟨kind, g.bytes, p, p.after g⟩, gs, p.after g)
  if g.char = '(' then .ok (single .opening)
  else if g.char = ')' then .ok (single .closing)
  else if g.char = '\'' then .ok (single .quote)
  else if g.char = '"' then do
    let (text, rest, q) ← scanString p gs (p.after g)
    return (⟨.string, text, p, q⟩, rest, q)
  else if g.char = '#' then do
    let (text, rest, q) ← scanCharacter p gs (p.after g)
    return (⟨.char, text, p, q⟩, rest, q)
  else
    let (tail, rest, q) := spanAtom gs (p.after g)
    let atom := g.bytes ++ tail
    .ok (⟨classify atom, atom, p, q⟩, rest, q)

theorem length_skipBlank (comment : Bool) (gs : List Glyph) (p : Position) :
    (skipBlank comment gs p).1.length ≤ gs.length := by
  induction gs generalizing comment p with
  | nil => cases comment <;> simp [skipBlank]
  | cons g gs ih =>
    cases comment with
    | true => exact Nat.le_succ_of_le (ih _ _)
    | false =>
      simp only [skipBlank]
      split
      · exact Nat.le_succ_of_le (ih _ _)
      · split
        · exact Nat.le_succ_of_le (ih _ _)
        · exact Nat.le_refl _

theorem length_spanAtom (gs : List Glyph) (p : Position) :
    (spanAtom gs p).2.1.length ≤ gs.length := by
  induction gs generalizing p with
  | nil => simp [spanAtom]
  | cons g gs ih =>
    simp only [spanAtom]
    split
    · simp
    · exact Nat.le_succ_of_le (ih _)

theorem length_scanString {start : Position} {gs : List Glyph} {p : Position} {text : Bytes}
    {rest : List Glyph} {q : Position} (h : scanString start gs p = .ok (text, rest, q)) :
    rest.length ≤ gs.length := by
  fun_induction scanString start gs p generalizing text rest q with
  | case1 => simp at h
  | case2 p g gs hq => simp_all
  | case3 => simp at h
  | case4 => simp at h
  | case5 g p _ _ e gs c _ ih =>
    cases hs : scanString start gs ((p.after g).after e) with
    | error f => simp [hs, bind, Except.bind] at h
    | ok r =>
      obtain ⟨tail, left, place⟩ := r
      simp only [hs, bind, Except.bind, pure, Except.pure, Except.ok.injEq, Prod.mk.injEq] at h
      have bound := ih hs
      rw [h.2.1] at bound
      exact Nat.le_trans bound (Nat.le_add_right _ 2)
  | case6 g gs p _ _ ih =>
    cases hs : scanString start gs (p.after g) with
    | error f => simp [hs, bind, Except.bind] at h
    | ok r =>
      obtain ⟨tail, left, place⟩ := r
      simp only [hs, bind, Except.bind, pure, Except.pure, Except.ok.injEq, Prod.mk.injEq] at h
      have bound := ih hs
      rw [h.2.1] at bound
      exact Nat.le_succ_of_le bound

theorem length_scanCharacter {start : Position} {gs : List Glyph} {p : Position} {text : Bytes}
    {rest : List Glyph} {q : Position} (h : scanCharacter start gs p = .ok (text, rest, q)) :
    rest.length ≤ gs.length := by
  match gs with
  | [] => simp [scanCharacter] at h
  | g :: [] =>
    simp only [scanCharacter] at h
    split at h <;> simp at h
  | g :: c :: tail =>
    have bound := length_spanAtom tail ((p.after g).after c)
    simp only [scanCharacter] at h
    split at h
    · simp at h
    · split at h
      · simp only [Except.ok.injEq, Prod.mk.injEq] at h
        rw [← h.2.1]
        exact Nat.le_trans bound (Nat.le_add_right _ 2)
      · split at h
        · simp only [Except.ok.injEq, Prod.mk.injEq] at h
          rw [← h.2.1]
          exact Nat.le_trans bound (Nat.le_add_right _ 2)
        · simp at h

theorem length_scanToken {g : Glyph} {gs : List Glyph} {p : Position} {t : Token}
    {rest : List Glyph} {q : Position} (h : scanToken g gs p = .ok (t, rest, q)) :
    rest.length ≤ gs.length := by
  unfold scanToken at h
  split at h
  · simp_all
  split at h
  · simp_all
  split at h
  · simp_all
  split at h
  · cases hs : scanString p gs (p.after g) with
    | error f => simp [hs, bind, Except.bind] at h
    | ok r =>
      simp only [hs, bind, Except.bind, pure, Except.pure, Except.ok.injEq, Prod.mk.injEq] at h
      rw [← h.2.1]
      exact length_scanString hs
  split at h
  · cases hs : scanCharacter p gs (p.after g) with
    | error f => simp [hs, bind, Except.bind] at h
    | ok r =>
      simp only [hs, bind, Except.bind, pure, Except.pure, Except.ok.injEq, Prod.mk.injEq] at h
      rw [← h.2.1]
      exact length_scanCharacter hs
  · simp only [Except.ok.injEq, Prod.mk.injEq] at h
    rw [← h.2.1]
    exact length_spanAtom gs (p.after g)

/-- The tokens from a place on. -/
def scanFrom (gs : List Glyph) (p : Position) : Tokens :=
  match _hb : skipBlank false gs p with
  | ([], q) => ⟨[], .finished q⟩
  | (g :: rest, q) =>
    match _ht : scanToken g rest q with
    | .error f => ⟨[], .failed ⟨f, q⟩⟩
    | .ok (t, rest', q') =>
      let ts := scanFrom rest' q'
      ⟨t :: ts.list, ts.ending⟩
termination_by gs.length
decreasing_by
  have blank := length_skipBlank false gs p
  have token := length_scanToken _ht
  rw [_hb] at blank
  simp only [List.length_cons] at blank
  omega

def scan (file text : Bytes) : Tokens := scanFrom (Text.glyphs text) { file := file }

end StackLisp.Token
