import StackLisp.Toml.Number

/-! Reading of configuration text into statements. -/
namespace StackLisp.Toml

def isSpace (c : Char) : Bool := c == ' ' || c == '\t'

def isNewline (c : Char) : Bool := c == '\n' || c == '\r'

def skipSpaces (text : List Char) : List Char := text.dropWhile isSpace

/-- Control characters other than tabs and line ends are not allowed anywhere. -/
def isControl (c : Char) : Bool :=
  c != '\t' && c != '\n' && c != '\r' && (c.toNat < 32 || c.toNat == 127)

/-- A carriage return must be part of a line end. -/
def charactersOk : List Char → Bool
  | [] => true
  | '\r' :: rest => rest.head? == some '\n' && charactersOk rest
  | c :: rest => !isControl c && charactersOk rest

def scalar? (n : Nat) : Option Char :=
  if n < 0xD800 ∨ (0xE000 ≤ n ∧ n < 0x110000) then some (Char.ofNat n) else none

def hexScalar? (digits : List Char) : Option Char :=
  (digits.mapM hexDigitValue?).bind fun ds => scalar? (ds.foldl (fun n d => 16 * n + d) 0)

def namedEscape? : Char → Option Char
  | 'b' => some '\x08'
  | 't' => some '\t'
  | 'n' => some '\n'
  | 'f' => some '\x0c'
  | 'r' => some '\r'
  | 'e' => some '\x1b'
  | '"' => some '"'
  | '\\' => some '\\'
  | _ => none

/-- The character a backslash and what follows it stand for. -/
def escape? : List Char → Option (Char × List Char)
  | 'x' :: a :: b :: rest => (hexScalar? [a, b]).map fun c => (c, rest)
  | 'u' :: a :: b :: c :: d :: rest => (hexScalar? [a, b, c, d]).map fun c => (c, rest)
  | 'U' :: a :: b :: c :: d :: e :: f :: g :: h :: rest =>
    (hexScalar? [a, b, c, d, e, f, g, h]).map fun c => (c, rest)
  | c :: rest => (namedEscape? c).map fun c => (c, rest)
  | [] => none

/-- The rest of a string on one line, behind its opening quote. -/
def basicString? : Nat → List Char → Option (List Char × List Char)
  | 0, _ => none
  | fuel + 1, text =>
    match text with
    | [] => none
    | '"' :: rest => some ([], rest)
    | '\\' :: rest => do
      let (c, rest) ← escape? rest
      let (cs, rest) ← basicString? fuel rest
      some (c :: cs, rest)
    | c :: rest =>
      if isNewline c then none
      else (basicString? fuel rest).map fun (cs, rest) => (c :: cs, rest)

/-- A string without escapes. -/
def rawString? : List Char → Option (List Char × List Char)
  | [] => none
  | '\'' :: rest => some ([], rest)
  | c :: rest =>
    if isNewline c then none else (rawString? rest).map fun (cs, rest) => (c :: cs, rest)

/-- The first line end of a string of several lines is not part of it. -/
def dropFirstNewline : List Char → List Char
  | '\n' :: rest => rest
  | '\r' :: '\n' :: rest => rest
  | text => text

/-- The end of a string of several lines: three quotes, and before them at most two that belong
to the string. More are a fault. -/
def closing? (quote : Char) (text : List Char) : Option (Option (List Char × List Char)) :=
  let run := (text.takeWhile (· = quote)).length
  if run < 3 then none
  else if run > 5 then some none
  else some (some (List.replicate (run - 3) quote, text.drop run))

/-- What follows a backslash at the end of a line, up to the next text. -/
def lineBreak? (text : List Char) : Option (List Char) :=
  let blank := text.takeWhile fun c => isSpace c || isNewline c
  if '\n' ∈ blank then some (text.drop blank.length) else none

def basicLines? : Nat → List Char → Option (List Char × List Char)
  | 0, _ => none
  | fuel + 1, text =>
    match closing? '"' text with
    | some found => found
    | none =>
      match text with
      | [] => none
      | '\\' :: rest =>
        match lineBreak? rest with
        | some rest => basicLines? fuel rest
        | none => do
          let (c, rest) ← escape? rest
          let (cs, rest) ← basicLines? fuel rest
          some (c :: cs, rest)
      | c :: rest => (basicLines? fuel rest).map fun (cs, rest) => (c :: cs, rest)

def rawLines? : Nat → List Char → Option (List Char × List Char)
  | 0, _ => none
  | fuel + 1, text =>
    match closing? '\'' text with
    | some found => found
    | none =>
      match text with
      | [] => none
      | c :: rest => (rawLines? fuel rest).map fun (cs, rest) => (c :: cs, rest)

/-- A part of a key, bare or in quotes. -/
def keyPart? (text : List Char) : Option (Bytes × List Char) :=
  match text with
  | '"' :: rest => (basicString? (rest.length + 1) rest).map fun (cs, rest) => (Text.encode cs, rest)
  | '\'' :: rest => (rawString? rest).map fun (cs, rest) => (Text.encode cs, rest)
  | _ =>
    let name := text.takeWhile isBareChar
    if name = [] then none else some (Text.encode name, text.drop name.length)

/-- A dotted key, with the spaces around it. -/
def key? : Nat → List Char → Option (Key × List Char)
  | 0, _ => none
  | fuel + 1, text => do
    let (part, rest) ← keyPart? (skipSpaces text)
    match skipSpaces rest with
    | '.' :: rest =>
      let (parts, rest) ← key? fuel rest
      some (part :: parts, rest)
    | rest => some ([part], rest)

def skipComment (text : List Char) : List Char := text.dropWhile fun c => !isNewline c

/-- Skips blank lines and comments. -/
def skipLines : Nat → List Char → List Char
  | 0, text => text
  | fuel + 1, text =>
    match text.dropWhile fun c => isSpace c || isNewline c with
    | '#' :: rest => skipLines fuel (skipComment rest)
    | rest => rest

def isFloatChar (c : Char) : Bool :=
  isDigitChar c || c == '_' || c == '.' || c == '-' || c == '+' || c == 'e' || c == 'E'

def isDatetimeChar (c : Char) : Bool :=
  isDigitChar c || c == '-' || c == ':' || c == 'T' || c == 't' || c == ' ' || c == '.' || c == 'Z'
    || c == 'z' || c == '+'

def floatAfter? (start rest : List Char) : Option (Written × List Char) :=
  let more := rest.takeWhile isFloatChar
  (float? (start ++ more)).map fun x => (.float x, rest.drop more.length)

def datetimeAfter? (start rest : List Char) : Option (Written × List Char) :=
  let more := rest.takeWhile isDatetimeChar
  let text := ((start ++ more).reverse.dropWhile isSpace).reverse
  if isDatetime text then some (.datetime (Text.encode text), rest.drop more.length) else none

/-- A number whose digits may hold underscores, behind the given start. -/
def decimalAfter? (start rest : List Char) : Option (Written × List Char) :=
  let more := rest.takeWhile fun c => isDigitChar c || c == '_'
  let rest := rest.drop more.length
  match rest with
  | c :: _ =>
    if c = '.' ∨ c = 'e' ∨ c = 'E' then floatAfter? (start ++ more) rest
    else (integer? (start ++ more)).map fun i => (.integer i, rest)
  | [] => (integer? (start ++ more)).map fun i => (.integer i, rest)

/-- An integer in another base; a digit must follow the letter of the base. -/
def basedAfter? (letter : Char) (base : Nat) (rest : List Char) : Option (Written × List Char) :=
  let isDigitOf (c : Char) : Bool := (hexDigitValue? c).any (· < base)
  let more := rest.takeWhile fun c => isDigitOf c || c == '_'
  if rest.head?.any isDigitOf then
    (integer? ('0' :: letter :: more)).map fun i => (.integer i, rest.drop more.length)
  else none

/-- A value that starts with a digit. -/
def numberOrDatetime? (text : List Char) : Option (Written × List Char) :=
  match text with
  | '0' :: 'x' :: rest => basedAfter? 'x' 16 rest
  | '0' :: 'o' :: rest => basedAfter? 'o' 8 rest
  | '0' :: 'b' :: rest => basedAfter? 'b' 2 rest
  | _ =>
    let digits := text.takeWhile isDigitChar
    let rest := text.drop digits.length
    match rest with
    | '-' :: _ | ':' :: _ =>
      if digits = ['0'] then (integer? digits).map fun i => (.integer i, rest)
      else datetimeAfter? digits rest
    | _ => decimalAfter? digits rest

/-- A value that starts with a sign. -/
def signed? (sign : Char) (text : List Char) : Option (Written × List Char) :=
  match text with
  | 'i' :: 'n' :: 'f' :: rest => (float? [sign, 'i', 'n', 'f']).map fun x => (.float x, rest)
  | 'n' :: 'a' :: 'n' :: rest => (float? [sign, 'n', 'a', 'n']).map fun x => (.float x, rest)
  | '0' :: c :: rest =>
    if c = 'b' ∨ c = 'o' ∨ c = 'x' then none else decimalAfter? [sign, '0'] (c :: rest)
  | c :: rest => if isDigitChar c then decimalAfter? [sign, c] rest else none
  | [] => none

/-- Values other than arrays and inline tables. -/
def scalarValue? (text : List Char) : Option (Written × List Char) :=
  match text with
  | '"' :: '"' :: '"' :: rest =>
    (basicLines? (rest.length + 1) (dropFirstNewline rest)).map fun (cs, rest) =>
      (.string (Text.encode cs), rest)
  | '"' :: rest =>
    (basicString? (rest.length + 1) rest).map fun (cs, rest) => (.string (Text.encode cs), rest)
  | '\'' :: '\'' :: '\'' :: rest =>
    (rawLines? (rest.length + 1) (dropFirstNewline rest)).map fun (cs, rest) =>
      (.string (Text.encode cs), rest)
  | '\'' :: rest => (rawString? rest).map fun (cs, rest) => (.string (Text.encode cs), rest)
  | 't' :: 'r' :: 'u' :: 'e' :: rest => some (.bool true, rest)
  | 'f' :: 'a' :: 'l' :: 's' :: 'e' :: rest => some (.bool false, rest)
  | 'i' :: 'n' :: 'f' :: rest => (float? ['i', 'n', 'f']).map fun x => (.float x, rest)
  | 'n' :: 'a' :: 'n' :: rest => (float? ['n', 'a', 'n']).map fun x => (.float x, rest)
  | '+' :: rest => signed? '+' rest
  | '-' :: rest => signed? '-' rest
  | c :: _ => if isDigitChar c then numberOrDatetime? text else none
  | [] => none

mutual
/-- A value, behind spaces. -/
def value? : Nat → List Char → Option (Written × List Char)
  | 0, _ => none
  | fuel + 1, text =>
    match skipSpaces text with
    | '[' :: rest => (arrayItems? fuel rest).map fun (items, rest) => (.array items, rest)
    | '\x7b' :: rest => (inlinePairs? fuel rest).map fun (pairs, rest) => (.inline pairs, rest)
    | rest => scalarValue? rest

/-- The items of an array up to its end; a comma may stand behind the last. -/
def arrayItems? : Nat → List Char → Option (List Written × List Char)
  | 0, _ => none
  | fuel + 1, text =>
    match skipLines text.length text with
    | ']' :: rest => some ([], rest)
    | rest =>
      match value? fuel rest with
      | none => none
      | some (v, rest) =>
        match skipLines rest.length rest with
        | ',' :: rest => (arrayItems? fuel rest).map fun (vs, rest) => (v :: vs, rest)
        | ']' :: rest => some ([v], rest)
        | _ => none

/-- The pairs of an inline table up to its end; a comma may stand behind the last. -/
def inlinePairs? : Nat → List Char → Option (List (Key × Written) × List Char)
  | 0, _ => none
  | fuel + 1, text =>
    match skipLines text.length text with
    | '\x7d' :: rest => some ([], rest)
    | rest =>
      match key? (rest.length + 1) rest with
      | some (k, '=' :: rest) =>
        match value? fuel rest with
        | none => none
        | some (v, rest) =>
          match skipLines rest.length rest with
          | ',' :: rest => (inlinePairs? fuel rest).map fun (ps, rest) => ((k, v) :: ps, rest)
          | '\x7d' :: rest => some ([(k, v)], rest)
          | _ => none
      | _ => none
end

/-- What follows a statement: nothing more on its line but a comment. -/
def lineEnd? (text : List Char) : Option (List Char) :=
  match skipSpaces text with
  | [] => some []
  | '#' :: rest => some (skipComment rest)
  | c :: rest => if isNewline c then some rest else none

def statement? (text : List Char) : Option (Statement × List Char) :=
  match text with
  | '[' :: '[' :: rest =>
    match key? (rest.length + 1) rest with
    | some (k, ']' :: ']' :: rest) => some (.arrayTable k, rest)
    | _ => none
  | '[' :: rest =>
    match key? (rest.length + 1) rest with
    | some (k, ']' :: rest) => some (.table k, rest)
    | _ => none
  | _ =>
    match key? (text.length + 1) text with
    | some (k, '=' :: rest) =>
      (value? (2 * rest.length + 2) rest).map fun (v, rest) => (.assign k v, rest)
    | _ => none

def statements? : Nat → List Char → Option (List Statement)
  | 0, _ => none
  | fuel + 1, text =>
    match skipLines text.length text with
    | [] => some []
    | rest => do
      let (s, rest) ← statement? rest
      let rest ← lineEnd? rest
      let ss ← statements? fuel rest
      some (s :: ss)

/-- The text without a mark of its encoding. -/
def withoutMark : Bytes → Bytes
  | 0xff :: 0xfe :: rest => rest
  | 0xfe :: 0xff :: rest => rest
  | 0xef :: 0xbb :: 0xbf :: rest => rest
  | text => text

/-- The statements of a text, or nothing if it is malformed. -/
def read? (text : Bytes) : Option (List Statement) :=
  let text := withoutMark text
  let cs := Text.chars text
  if Text.isValid text && charactersOk cs then statements? (cs.length + 1) cs else none

end StackLisp.Toml
