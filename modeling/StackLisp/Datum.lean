import StackLisp.Token

/-! Data: the nested lists that tokens spell. -/
namespace StackLisp

/-- An atom, or a list with its opening parenthesis and the place behind its closing one. -/
inductive Datum where
  | atom (token : Token)
  | list (opening : Token) (items : List Datum) (stop : Position)

namespace Datum

/-- The token a datum starts with. -/
def token : Datum → Token
  | atom t => t
  | list t _ _ => t

def start (d : Datum) : Position := d.token.start

def stop : Datum → Position
  | atom t => t.stop
  | list _ _ p => p

/-- A fault of the whole datum; one that spans lines is reported at its first token. -/
def fail (d : Datum) (f : Fault) : LocatedFault :=
  ⟨f, d.start, if d.stop.line = d.start.line then d.stop else d.token.stop⟩

/-- What a datum is, for a message that expected something else. -/
def describe : Datum → Bytes
  | list _ _ _ => Text.lit "list"
  | atom t =>
    match t.kind with
    | .ident => t.literal
    | .string => Text.lit "string"
    | .char => Text.lit "character"
    | _ => Text.lit "number"

end Datum
end StackLisp
