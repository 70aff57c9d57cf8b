import StackLisp.Text.Utf8

/-! Tables drawn with characters. -/
namespace StackLisp

open Text (lit spaces repeated)

inductive Alignment where
  | left
  | right
  | center
deriving DecidableEq, Repr

/-- A table; cells that a row lacks are empty, and columns without an alignment go to the left. -/
structure Table where
  header : List Bytes := []
  rows : List (List Bytes) := []
  columns : List Alignment := []
  headerAlignment : List Alignment := []
deriving DecidableEq, Repr

namespace Table

/-- The text behind a color sequence whose parameters start here, or nothing if it is none. -/
def afterColor : Bytes → Option Bytes
  | [] => none
  | b :: rest =>
    if b = 109 then some rest
    else if Text.isDigit b || b = 59 then afterColor rest
    else none

theorem length_afterColor {text rest : Bytes} (h : afterColor text = some rest) :
    rest.length < text.length := by
  induction text with
  | nil => simp [afterColor] at h
  | cons b bs ih =>
    simp only [afterColor] at h
    split at h
    · simp at h; simp [h]
    · split at h
      · have := ih h; simp; omega
      · simp at h

/-- The text without color sequences. -/
def withoutColors : Bytes → Bytes
  | 27 :: 91 :: rest =>
    match _h : afterColor rest with
    | some left => withoutColors left
    | none => 27 :: withoutColors (91 :: rest)
  | b :: rest => b :: withoutColors rest
  | [] => []
termination_by text => text.length
decreasing_by
  · have := length_afterColor _h; simp; omega
  · simp
  · simp

/-- The number of columns a text takes on a terminal. -/
def width (text : Bytes) : Nat := (Text.glyphs (withoutColors text)).length

def pad (w : Nat) (a : Alignment) (text : Bytes) : Bytes :=
  let gap := w - width text
  match a with
  | .left => text ++ spaces gap
  | .right => spaces gap ++ text
  | .center => spaces (gap / 2) ++ text ++ spaces (gap - gap / 2)

/-- The larger of two widths, column by column. -/
def widen : List Nat → List Nat → List Nat
  | [], ws => ws
  | ws, [] => ws
  | v :: vs, w :: ws => max v w :: widen vs ws

/-- The width of each column. -/
def widths (t : Table) : List Nat :=
  (t.header :: t.rows).foldl (fun ws row => widen ws (row.map width)) []

def separator (widths : List Nat) : Bytes :=
  lit "+" ++ widths.flatMap (fun w => repeated (w + 2) 45 ++ lit "+") ++ lit "\n"

def cells : List Nat → List Alignment → List Bytes → Bytes
  | [], _, _ => []
  | w :: ws, as, row =>
    lit " " ++ pad w (as.headD .left) (row.headD []) ++ lit " |" ++ cells ws as.tail row.tail

def line (widths : List Nat) (as : List Alignment) (row : List Bytes) : Bytes :=
  lit "|" ++ cells widths as row ++ lit "\n"

def render (t : Table) : Bytes :=
  let ws := t.widths
  separator ws
    ++ (if t.header = [] then [] else line ws t.headerAlignment t.header ++ separator ws)
    ++ t.rows.flatMap (line ws t.columns) ++ separator ws

end Table
end StackLisp
