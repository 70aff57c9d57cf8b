import StackLisp.Text.Bytes

/-! Paths of files, with slashes between their parts. -/
namespace StackLisp.Path

open Text (lit)

def slash : UInt8 := 47

def dot : Bytes := lit "."

def dotDot : Bytes := lit ".."

def isAbsolute (p : Bytes) : Bool := p.head? == some slash

/-- Adds a part to cleaned parts, last first. A step up removes the part before it; at the root it
has no effect. -/
def addPart (absolute : Bool) (parts : List Bytes) (part : Bytes) : List Bytes :=
  if part = [] ∨ part = dot then parts
  else if part = dotDot then
    match parts with
    | [] => if absolute then [] else [dotDot]
    | last :: rest => if last = dotDot then dotDot :: parts else rest
  else part :: parts

/-- The shortest path that names the same file, as far as the text of the path tells. -/
def clean (p : Bytes) : Bytes :=
  let absolute := isAbsolute p
  let parts := ((Text.split slash p).foldl (addPart absolute) []).reverse
  let joined := Text.join [slash] parts
  if absolute then slash :: joined else if joined = [] then dot else joined

/-- Joins the parts that are not empty. -/
def join (parts : List Bytes) : Bytes :=
  match parts.filter (· ≠ []) with
  | [] => []
  | given => clean (Text.join [slash] given)

/-- A path seen from a directory. -/
def within (dir p : Bytes) : Bytes := if isAbsolute p then p else join [dir, p]

def absolute (cwd p : Bytes) : Bytes := if isAbsolute p then clean p else join [cwd, p]

/-- The text behind the last slash. -/
def afterSlash (p : Bytes) : Bytes := (p.reverse.takeWhile (· ≠ slash)).reverse

/-- The text up to the last slash, with it. -/
def throughSlash (p : Bytes) : Bytes := (p.reverse.dropWhile (· ≠ slash)).reverse

def withoutEndSlashes (p : Bytes) : Bytes := (p.reverse.dropWhile (· = slash)).reverse

/-- The text before the last part, through the slash that ends it. -/
def upTo (p : Bytes) : Bytes := throughSlash (withoutEndSlashes p)

theorem length_upTo_lt {p : Bytes} (h : upTo p ≠ []) : (upTo p).length < p.length := by
  have hr : p.reverse.length = p.length := List.length_reverse
  rw [upTo, throughSlash, withoutEndSlashes, List.reverse_reverse] at h ⊢
  rw [List.length_reverse]
  cases hp : p.reverse with
  | nil => simp [hp] at h
  | cons b bs =>
    have hb : p.length = bs.length + 1 := by rw [← hr, hp, List.length_cons]
    have hd (f g : UInt8 → Bool) : ((bs.dropWhile f).dropWhile g).length ≤ bs.length :=
      ((List.dropWhile_sublist _).trans (List.dropWhile_sublist _)).length_le
    have he (g : UInt8 → Bool) : (bs.dropWhile g).length ≤ bs.length :=
      (List.dropWhile_sublist _).length_le
    by_cases hs : b = slash
    · have := hd (· = slash) (· ≠ slash)
      simp only [List.dropWhile_cons, hs] at this ⊢
      simp at this ⊢
      omega
    · have := he (· ≠ slash)
      simp only [List.dropWhile_cons, hs] at this ⊢
      simp [hs] at this ⊢
      omega

def parent (p : Bytes) : Bytes := clean (throughSlash p)

def ancestorsFrom : List Bytes → List Bytes
  | [] => [[slash]]
  | name :: rest => (slash :: Text.join [slash] (rest.reverse ++ [name])) :: ancestorsFrom rest

/-- An absolute path and the directories it lies in, up to the root. -/
def ancestors (p : Bytes) : List Bytes :=
  ancestorsFrom ((Text.split slash p).filter (· ≠ [])).reverse

/-- The last part of a path. -/
def base (p : Bytes) : Bytes :=
  if p = [] then dot
  else
    let name := afterSlash (withoutEndSlashes p)
    if name = [] then [slash] else name

/-- The suffix of the last part from its last period on. -/
def extension (p : Bytes) : Bytes :=
  let name := (afterSlash p).reverse
  if 46 ∈ name then (name.takeWhile (· ≠ 46)).reverse |> (46 :: ·) else []

end StackLisp.Path
