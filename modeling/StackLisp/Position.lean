import StackLisp.Text.Utf8

/-! Places in program text. -/
namespace StackLisp

/-- A place: its byte offset, and its line and column counted from zero in characters. Trees built
by a host may carry any line and column. -/
structure Position where
  offset : Nat := 0
  line : Int := 0
  column : Int := 0
  file : Bytes := []
deriving DecidableEq, Repr, Inhabited

namespace Position

/-- The place behind one character. -/
def after (p : Position) (g : Text.Glyph) : Position :=
  if g.char = '\n' then
    { p with offset := p.offset + g.bytes.length, line := p.line + 1, column := 0 }
  else { p with offset := p.offset + g.bytes.length, column := p.column + 1 }

def lineNumber (p : Position) : Int := p.line + 1

def columnNumber (p : Position) : Int := p.column + 1

end Position
end StackLisp
