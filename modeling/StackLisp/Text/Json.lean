import StackLisp.Text.Utf8

/-! Structured text in the notation of JSON, indented by two spaces. -/
namespace StackLisp

inductive Json where
  | null
  | bool (b : Bool)
  | int (i : Int)
  | string (s : Bytes)
  | array (items : List Json)
  | object (fields : List (Bytes × Json))

namespace Json

open Text (lit decimalInt hexFixed spaces join)

/-- Characters that could be taken for markup are written by number, and so are those that end
lines. -/
def escape (g : Text.Glyph) : Bytes :=
  if g.isBad then lit "\\ufffd"
  else match g.char with
    | '"' => lit "\\\""
    | '\\' => lit "\\\\"
    | '\x08' => lit "\\b"
    | '\x0c' => lit "\\f"
    | '\n' => lit "\\n"
    | '\r' => lit "\\r"
    | '\t' => lit "\\t"
    | c =>
      if c.toNat < 32 ∨ c = '<' ∨ c = '>' ∨ c = '&' ∨ c.toNat = 0x2028 ∨ c.toNat = 0x2029 then
        lit "\\u" ++ hexFixed 4 c.toNat
      else g.bytes

def quoted (s : Bytes) : Bytes := lit "\"" ++ (Text.glyphs s).flatMap escape ++ lit "\""

/-- Items on lines of their own between brackets. -/
def enclosed (start stop : String) (depth : Nat) (items : List Bytes) : Bytes :=
  if items = [] then lit start ++ lit stop
  else
    let line := lit "\n" ++ spaces (2 * depth)
    let inner := lit "\n" ++ spaces (2 * (depth + 1))
    lit start ++ inner ++ join (lit "," ++ inner) items ++ line ++ lit stop

mutual
def renderAt (depth : Nat) : Json → Bytes
  | null => lit "null"
  | bool true => lit "true"
  | bool false => lit "false"
  | int i => decimalInt i
  | string s => quoted s
  | array items => enclosed "[" "]" depth (renderItems (depth + 1) items)
  | object fields => enclosed "\x7b" "\x7d" depth (renderFields (depth + 1) fields)

def renderItems (depth : Nat) : List Json → List Bytes
  | [] => []
  | j :: rest => renderAt depth j :: renderItems depth rest

def renderFields (depth : Nat) : List (Bytes × Json) → List Bytes
  | [] => []
  | (key, j) :: rest =>
    (quoted key ++ lit ": " ++ renderAt depth j) :: renderFields depth rest
end

def render (j : Json) : Bytes := renderAt 0 j

end Json
end StackLisp
