import StackLisp.Builtin

/-! What the manual says about each system function. -/
namespace StackLisp

structure ManualEntry where
  args : List String
  doc : String
  usage : String
deriving Repr

def Primitive.manual : Primitive → ManualEntry
  | add => ⟨["n..."], "Sum of the arguments; (+) is 0", "(+ 1 2 3)"⟩
  | sub => ⟨["n", "m..."], "Difference; with one argument, negation", "(- 10 4)"⟩
  | mul => ⟨["n..."], "Product of the arguments; (*) is 1", "(* 2 3)"⟩
  | div => ⟨["n", "m..."], "Quotient; with one argument, reciprocal", "(/ 1.0 4)"⟩
  | floorDiv => ⟨["n", "m..."], "Floor division; with one argument, (// 1 n)", "(// 7 2)"⟩
  | rem => ⟨["n", "m"], "Remainder of integer division", "(rem 7 2)"⟩
  | pow => ⟨["base", "exp"], "Exponentiation", "(^ 2 10)"⟩
  | eq => ⟨["a", "b..."], "True if all arguments are equal", "(= 1 1)"⟩
  | notEq => ⟨["a", "b..."], "True if no two adjacent arguments are equal", "(/= 1 2)"⟩
  | lt => ⟨["a", "b..."], "True if arguments are strictly increasing", "(< 1 2 3)"⟩
  | gt => ⟨["a", "b..."], "True if arguments are strictly decreasing", "(> 3 2 1)"⟩
  | le => ⟨["a", "b..."], "True if arguments are non-decreasing", "(<= 1 1 2)"⟩
  | ge => ⟨["a", "b..."], "True if arguments are non-increasing", "(>= 2 2 1)"⟩
  | not => ⟨["b"], "Boolean negation", "(not false)"⟩
  | identity => ⟨["x"], "Returns its argument", "(id 1)"⟩
  | floor => ⟨["n"], "Largest integer not greater than n", "(floor 1.5)"⟩
  | ceiling => ⟨["n"], "Smallest integer not less than n", "(ceiling 1.5)"⟩
  | round => ⟨["n"], "Nearest integer, halves away from zero", "(round 2.5)"⟩
  | truncate => ⟨["n"], "Integer part of n", "(truncate -1.5)"⟩
  | abs => ⟨["n"], "Absolute value", "(abs -3)"⟩
  | min => ⟨["n..."], "Smallest argument", "(min 3 1 2)"⟩
  | max => ⟨["n..."], "Largest argument", "(max 3 1 2)"⟩
  | list => ⟨["x..."], "Builds a list", "(list 1 2 3)"⟩
  | first => ⟨["list"], "First element of a list", "(first (list 1 2))"⟩
  | tail => ⟨["list"], "All but the first element", "(tail (list 1 2))"⟩
  | init => ⟨["list"], "All but the last element", "(init (list 1 2))"⟩
  | last => ⟨["list"], "Last element of a list", "(last (list 1 2))"⟩
  | append => ⟨["list", "x"], "List with x added at the end", "(append (list 1) 2)"⟩
  | elt => ⟨["list", "i"], "Element at index i", "(elt (list 1 2) 1)"⟩
  | concat => ⟨["list..."], "Concatenation of lists", "(concat (list 1) (list 2))"⟩
  | len => ⟨["x"], "Length of a list or string", "(len \"abc\")"⟩
  | null => ⟨["x"], "True for the empty value", "(null ())"⟩
  | typeOf => ⟨["x"], "Name of the value's type", "(type-of 1)"⟩
  | format => ⟨["fmt", "x..."], "Formats arguments into a string", "(format \"\x7b\x7d\" 1)"⟩
  | print => ⟨["fmt", "x..."], "Prints formatted output", "(print \"hi\")"⟩
  | println => ⟨["fmt?", "x..."], "Prints formatted output and a newline", "(println \"hi\")"⟩

end StackLisp
