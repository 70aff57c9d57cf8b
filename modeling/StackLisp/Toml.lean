import StackLisp.Number.Double
import StackLisp.Text.Utf8

/-! Configuration text in the notation of TOML: keys, values and statements. -/
namespace StackLisp.Toml

open Text (lit)

/-- A dotted key. -/
abbrev Key := List Bytes

/-- A value as it is written. -/
inductive Written where
  | string (s : Bytes)
  | integer (i : Int)
  | float (x : Double)
  | bool (b : Bool)
  | datetime (text : Bytes)
  | array (items : List Written)
  | inline (pairs : List (Key × Written))

/-- One entry of a text. -/
inductive Statement where
  | table (key : Key)
  | arrayTable (key : Key)
  | assign (key : Key) (value : Written)

/-- A value of a document. Tables of an array that is written table by table are a kind of their
own. -/
inductive Value where
  | string (s : Bytes)
  | integer (i : Int)
  | float (x : Double)
  | bool (b : Bool)
  | datetime (text : Bytes)
  | array (items : List Value)
  | table (entries : List (Bytes × Value))
  | tables (items : List (List (Bytes × Value)))

def isBareChar (c : Char) : Bool :=
  ('A' ≤ c && c ≤ 'Z') || ('a' ≤ c && c ≤ 'z') || ('0' ≤ c && c ≤ '9') || c == '_' || c == '-'

def escapeChar (c : Char) : Bytes :=
  match c with
  | '"' => lit "\\\""
  | '\\' => lit "\\\\"
  | '\x08' => lit "\\b"
  | '\t' => lit "\\t"
  | '\n' => lit "\\n"
  | '\x0c' => lit "\\f"
  | '\r' => lit "\\r"
  | c =>
    if c.toNat < 32 ∨ c.toNat = 127 then lit "\\u" ++ Text.hexFixed 4 c.toNat
    else Text.encodeChar c

/-- A part of a key as it would be written. -/
def renderPart (part : Bytes) : Bytes :=
  let cs := Text.chars part
  if part ≠ [] ∧ cs.all isBareChar then part
  else lit "\"" ++ cs.flatMap escapeChar ++ lit "\""

def renderKey (key : Key) : Bytes := Text.join (lit ".") (key.map renderPart)

end StackLisp.Toml
