import StackLisp.Text.Bytes

/-! Terminal colors. -/
namespace StackLisp

/-- A style is a list of display attributes. -/
structure Style where
  attributes : List Nat
deriving DecidableEq, Repr

namespace Style

open Text (lit)

def red : Style := ⟨[31]⟩
def green : Style := ⟨[32]⟩
def yellow : Style := ⟨[33]⟩
def magenta : Style := ⟨[35]⟩
def cyan : Style := ⟨[36]⟩
def gray : Style := ⟨[90]⟩
def brightRed : Style := ⟨[91]⟩
def brightRedBold : Style := ⟨[91, 1]⟩
def brightYellow : Style := ⟨[93]⟩
def brightBlue : Style := ⟨[94]⟩
def brightCyan : Style := ⟨[96]⟩
def bold : Style := ⟨[1]⟩
def boldUnderlined : Style := ⟨[1, 4]⟩

/-- The attribute that takes another one back. -/
def resetOf : Nat → Nat
  | 1 => 22
  | 4 => 24
  | _ => 0

def sequence (attributes : List Nat) : Bytes :=
  lit "\x1b[" ++ Text.join (lit ";") (attributes.map Text.decimal) ++ lit "m"

/-- The text between the sequences that turn the style on and off, when colors are wanted. -/
def paint (colored : Bool) (s : Style) (text : Bytes) : Bytes :=
  if colored then sequence s.attributes ++ text ++ sequence (s.attributes.map resetOf) else text

end Style
end StackLisp
