import StackLisp.Text.Utf8
import StackLisp.Text.Printable

/-! Quoted text: double quotes, named escapes, and numeric escapes for what cannot be printed. -/
namespace StackLisp.Text

def namedEscape (c : Char) : Option Bytes :=
  match c.toNat with
  | 7 => some (lit "\\a")
  | 8 => some (lit "\\b")
  | 12 => some (lit "\\f")
  | 10 => some (lit "\\n")
  | 13 => some (lit "\\r")
  | 9 => some (lit "\\t")
  | 11 => some (lit "\\v")
  | 92 => some (lit "\\\\")
  | 34 => some (lit "\\\"")
  | _ => none

def numericEscape (c : Char) : Bytes :=
  let n := c.toNat
  if n < 0x20 ∨ n = 0x7F then lit "\\x" ++ hexFixed 2 n
  else if n < 0x10000 then lit "\\u" ++ hexFixed 4 n
  else lit "\\U" ++ hexFixed 8 n

def quoteGlyph (g : Glyph) : Bytes :=
  if g.isBad then lit "\\x" ++ g.bytes.flatMap hexByte
  else match namedEscape g.char with
    | some escape => escape
    | none => if isPrintable g.char then g.bytes else numericEscape g.char

def quote (text : Bytes) : Bytes :=
  lit "\"" ++ (glyphs text).flatMap quoteGlyph ++ lit "\""

end StackLisp.Text
