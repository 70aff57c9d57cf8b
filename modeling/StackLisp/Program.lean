import StackLisp.Datum.Read
import StackLisp.Expr.Analysis
import StackLisp.Token.Scan

/-! Programs: the top-level forms of a text. -/
namespace StackLisp

/-- How a text is read: the name of its file and how deep its lists may nest. -/
structure ReadOptions where
  filename : Bytes := []
  depth : Int := 500
deriving DecidableEq, Repr

/-- The forms that could be read, and the faults of the others. -/
structure Program where
  forms : List Expr
  faults : List LocatedFault

namespace Program

/-- Reading stops when this many faults have been found. -/
def mostFaults : Nat := 10

/-- Reads forms until the text ends, a datum cannot be read or `found` faults are too many. A form
that is malformed is passed over. -/
def readFrom (limit : Int) (ending : Ending) (found : Nat) (ts : List Token) : Program :=
  match ts with
  | [] =>
    match ending with
    | .finished _ => ⟨[], []⟩
    | .failed f => ⟨[], [f.located]⟩
  | t :: rest =>
    if found ≥ mostFaults then ⟨[], []⟩
    else match _h : Datum.read limit ending (t :: rest) with
      | .error f => ⟨[], [f]⟩
      | .ok (d, left) =>
        match Expr.ofDatum d with
        | .error f =>
          let p := readFrom limit ending (found + 1) left
          ⟨p.forms, f :: p.faults⟩
        | .ok e =>
          let p := readFrom limit ending found left
          ⟨e :: p.forms, p.faults⟩
termination_by ts.length
decreasing_by
  · exact Datum.length_readWithin _h
  · exact Datum.length_readWithin _h

def ofTokens (limit : Int) (ts : Tokens) : Program := readFrom limit ts.ending 0 ts.list

def read (options : ReadOptions) (source : Bytes) : Program :=
  ofTokens options.depth (Token.scan options.filename source)

/-- A reader that was cancelled gives up before its first form, but still meets an empty text or a
text whose first token is at fault. -/
def readUnless (cancelled : Bool) (options : ReadOptions) (source : Bytes) : Option Program :=
  let ts := Token.scan options.filename source
  if cancelled ∧ ts.list ≠ [] then none else some (ofTokens options.depth ts)

def diagnostics (p : Program) (options : ReadOptions) (source : Bytes) : List Diagnostic :=
  p.faults.map (LocatedFault.diagnostic source options.filename)

end Program
end StackLisp
