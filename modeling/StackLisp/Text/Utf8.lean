import StackLisp.Text.Bytes

/-! Decoding of UTF-8. A byte that starts no valid sequence is a character of its own, U+FFFD. -/
namespace StackLisp.Text

/-- One decoded character together with the bytes it was read from. -/
structure Glyph where
  char : Char
  bytes : Bytes
deriving DecidableEq, Repr

def replacement : Char := '�'

/-- An undecodable byte; a well-formed U+FFFD has three. -/
def Glyph.isBad (g : Glyph) : Bool := g.char == replacement && g.bytes.length == 1

def encodeChar (c : Char) : Bytes := String.utf8EncodeChar c

/-- What follows a lead byte: the number of continuation bytes and the bounds of the first one. -/
def continuation (b : UInt8) : Option (Nat × UInt8 × UInt8) :=
  if b < 0xC2 then none
  else if b < 0xE0 then some (1, 0x80, 0xBF)
  else if b = 0xE0 then some (2, 0xA0, 0xBF)
  else if b = 0xED then some (2, 0x80, 0x9F)
  else if b < 0xF0 then some (2, 0x80, 0xBF)
  else if b = 0xF0 then some (3, 0x90, 0xBF)
  else if b < 0xF4 then some (3, 0x80, 0xBF)
  else if b = 0xF4 then some (3, 0x80, 0x8F)
  else none

def isTail (b : UInt8) : Bool := 0x80 ≤ b && b ≤ 0xBF

/-- The six payload bits of a continuation byte. -/
def payload (b : UInt8) : Nat := b.toNat % 64

/-- The character that starts at `b`. -/
def firstGlyph (b : UInt8) (rest : Bytes) : Glyph :=
  if b < 0x80 then ⟨Char.ofNat b.toNat, [b]⟩
  else match continuation b, rest with
    | some (1, lo, hi), c :: _ =>
      if lo ≤ c ∧ c ≤ hi then ⟨Char.ofNat (b.toNat % 32 * 64 + payload c), [b, c]⟩
      else ⟨replacement, [b]⟩
    | some (2, lo, hi), c :: d :: _ =>
      if lo ≤ c ∧ c ≤ hi ∧ isTail d then
        ⟨Char.ofNat ((b.toNat % 16 * 64 + payload c) * 64 + payload d), [b, c, d]⟩
      else ⟨replacement, [b]⟩
    | some (3, lo, hi), c :: d :: e :: _ =>
      if lo ≤ c ∧ c ≤ hi ∧ isTail d ∧ isTail e then
        ⟨Char.ofNat (((b.toNat % 8 * 64 + payload c) * 64 + payload d) * 64 + payload e),
          [b, c, d, e]⟩
      else ⟨replacement, [b]⟩
    | _, _ => ⟨replacement, [b]⟩

/-- Decodes after passing over `skip` bytes that belong to the character before. -/
def glyphsFrom : Nat → Bytes → List Glyph
  | _, [] => []
  | skip + 1, _ :: rest => glyphsFrom skip rest
  | 0, b :: rest =>
    let g := firstGlyph b rest
    g :: glyphsFrom (g.bytes.length - 1) rest

def glyphs (text : Bytes) : List Glyph := glyphsFrom 0 text

def chars (text : Bytes) : List Char := (glyphs text).map Glyph.char

def encode (cs : List Char) : Bytes := cs.flatMap encodeChar

def isValid (text : Bytes) : Bool := (glyphs text).all fun g => !g.isBad

/-- The text as a string, every undecodable byte replaced. -/
def toString (text : Bytes) : String := String.ofList (chars text)

/-- The character with this code point; any other number gives U+FFFD. -/
def charOfInt (n : Int) : Char :=
  if h : n.toNat.isValidChar then
    if 0 ≤ n then Char.ofNatAux n.toNat h else replacement
  else replacement

end StackLisp.Text
