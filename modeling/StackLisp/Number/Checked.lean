/-! Arithmetic on integers of 64 bits. The operations of the machine wrap around; there is no value
where the result is out of range, which is seen from what has wrapped. -/
namespace StackLisp.Checked

def add (a b : Int64) : Option Int64 :=
  let s := a + b
  if (0 < b ∧ s < a) ∨ (b < 0 ∧ a < s) then none else some s

def sub (a b : Int64) : Option Int64 :=
  let s := a - b
  if (0 < b ∧ a < s) ∨ (b < 0 ∧ s < a) then none else some s

/-- Dividing again gives the factor back, unless the product has wrapped or the division does. -/
def mul (a b : Int64) : Option Int64 :=
  if a = 0 ∨ b = 0 then some 0
  else
    let p := a * b
    if p / b ≠ a ∨ (a = -1 ∧ b = .minValue) ∨ (b = -1 ∧ a = .minValue) then none else some p

/-- A quotient that is not whole is left to run time. -/
def exactQuotient (a b : Int64) : Option Int64 := if a % b = 0 then some (a / b) else none

/-- The machine rounds toward zero. -/
def floorQuotient (a b : Int64) : Option Int64 :=
  let q := a / b
  if a % b ≠ 0 ∧ decide (a < 0) ≠ decide (b < 0) then some (q - 1) else some q

/-- Divides by numbers other than zero, except for the one division whose result is too large. -/
def divide (div : Int64 → Int64 → Option Int64) (a b : Int64) : Option Int64 :=
  if b = 0 ∨ (a = .minValue ∧ b = -1) then none else div a b

/-- The remainder has the sign of the dividend. -/
def rem (a b : Int64) : Option Int64 :=
  if b = 0 then none else if b = -1 then some 0 else some (a % b)

def abs (a : Int64) : Option Int64 :=
  if a = .minValue then none else if a < 0 then some (-a) else some a

end StackLisp.Checked
