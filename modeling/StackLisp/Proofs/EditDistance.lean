import Mathlib.Order.Bounds.Basic
import StackLisp.Diagnostic.Suggestion

/-! The table of distances holds edit distances: the distance of two texts is the least number of
edits of single characters that turn one into the other, and so it is a metric. -/
namespace StackLisp

/-- A character is put in, taken out, or replaced. -/
inductive Edit : List Char → List Char → Prop where
  | insert (before after : List Char) (c : Char) : Edit (before ++ after) (before ++ c :: after)
  | delete (before after : List Char) (c : Char) : Edit (before ++ c :: after) (before ++ after)
  | substitute (before after : List Char) (c d : Char) :
    Edit (before ++ c :: after) (before ++ d :: after)

/-- That many edits, one after another. -/
inductive Edits : Nat → List Char → List Char → Prop where
  | refl (as : List Char) : Edits 0 as as
  | step {n : Nat} {as bs cs : List Char} : Edit as bs → Edits n bs cs → Edits (n + 1) as cs

namespace Edit

variable {as bs : List Char}

theorem symm (h : Edit as bs) : Edit bs as := by
  cases h with
  | insert before after c => exact .delete before after c
  | delete before after c => exact .insert before after c
  | substitute before after c d => exact .substitute before after d c

theorem cons (h : Edit as bs) (c : Char) : Edit (c :: as) (c :: bs) := by
  cases h with
  | insert before after d => exact .insert (c :: before) after d
  | delete before after d => exact .delete (c :: before) after d
  | substitute before after d e => exact .substitute (c :: before) after d e

theorem reverse (h : Edit as bs) : Edit as.reverse bs.reverse := by
  cases h with
  | insert before after c => simpa using insert after.reverse before.reverse c
  | delete before after c => simpa using delete after.reverse before.reverse c
  | substitute before after c d => simpa using substitute after.reverse before.reverse c d

end Edit

namespace Edits

variable {m n : Nat} {as bs cs : List Char}

theorem trans (h : Edits m as bs) (h' : Edits n bs cs) : Edits (m + n) as cs := by
  induction h with
  | refl as => rwa [Nat.zero_add]
  | step he _ ih => exact Nat.succ_add _ n ▸ .step he (ih h')

theorem symm (h : Edits n as bs) : Edits n bs as := by
  induction h with
  | refl as => exact .refl as
  | step he _ ih => exact ih.trans (.step he.symm (.refl _))

theorem cons (h : Edits n as bs) (c : Char) : Edits n (c :: as) (c :: bs) := by
  induction h with
  | refl as => exact .refl (c :: as)
  | step he _ ih => exact .step (he.cons c) ih

theorem reverse (h : Edits n as bs) : Edits n as.reverse bs.reverse := by
  induction h with
  | refl as => exact .refl as.reverse
  | step he _ ih => exact .step he.reverse ih

theorem eq_of_zero (h : Edits 0 as bs) : as = bs := by
  cases h
  rfl

theorem least (h : Edits m as bs) (h' : Edits n as bs) : Edits (min m n) as bs := by
  rw [Nat.min_def]
  split
  · exact h
  · exact h'

/-- All characters put in one by one. -/
theorem insertAll (bs : List Char) : Edits bs.length [] bs := by
  induction bs with
  | nil => exact .refl []
  | cons b bs ih => exact .step (.insert [] [] b) (ih.cons b)

/-- The distance by recursion on both texts: the first character of either is taken out or put in,
or the one is written over the other, at no cost if they are the same. -/
def distance : List Char → List Char → Nat
  | [], bs => bs.length
  | a :: as, [] => (a :: as).length
  | a :: as, b :: bs =>
    min (min (distance as (b :: bs) + 1) (distance (a :: as) bs + 1))
      (distance as bs + if a = b then 0 else 1)

theorem distance_nil (bs : List Char) : distance [] bs = bs.length := by
  rw [distance]

theorem distance_of_nil (as : List Char) : distance as [] = as.length := by
  cases as with
  | nil => rw [distance]
  | cons a as => rw [distance]

theorem distance_cons (a b : Char) (as bs : List Char) : distance (a :: as) (b :: bs) =
    min (min (distance as (b :: bs) + 1) (distance (a :: as) bs + 1))
      (distance as bs + if a = b then 0 else 1) := by
  rw [distance]

theorem cost_le (a b : Char) : (if a = b then 0 else 1) ≤ 1 := by
  split <;> decide

theorem distance_cons_le (a : Char) (as bs : List Char) :
    distance (a :: as) bs ≤ distance as bs + 1 := by
  cases bs with
  | nil => rw [distance_of_nil, distance_of_nil, List.length_cons]
  | cons b bs =>
    rw [distance_cons]
    omega

theorem distance_le_cons (b : Char) (as bs : List Char) :
    distance as (b :: bs) ≤ distance as bs + 1 := by
  cases as with
  | nil => rw [distance_nil, distance_nil, List.length_cons]
  | cons a as =>
    rw [distance_cons]
    omega

theorem distance_le_cons_left (a : Char) (as cs : List Char) :
    distance as cs ≤ distance (a :: as) cs + 1 := by
  induction cs with
  | nil =>
    rw [distance_of_nil, distance_of_nil, List.length_cons]
    omega
  | cons c cs ih =>
    have hinsert := distance_le_cons c as cs
    rw [distance_cons]
    omega

theorem distance_cons_le_cons_left (a b : Char) (as cs : List Char) :
    distance (a :: as) cs ≤ distance (b :: as) cs + 1 := by
  induction cs with
  | nil =>
    rw [distance_of_nil, distance_of_nil, List.length_cons, List.length_cons]
    omega
  | cons c cs ih =>
    have hcost := cost_le a c
    rw [distance_cons, distance_cons]
    omega

/-- A character in front of both texts does not make a difference between them larger. -/
theorem distance_cons_le_of_forall {as bs : List Char} (h : ∀ cs, distance as cs ≤ distance bs cs + 1)
    (a : Char) (cs : List Char) : distance (a :: as) cs ≤ distance (a :: bs) cs + 1 := by
  induction cs with
  | nil =>
    have hnil := h []
    rw [distance_of_nil, distance_of_nil] at hnil
    rw [distance_of_nil, distance_of_nil, List.length_cons, List.length_cons]
    omega
  | cons c cs ih =>
    have hrest := h cs
    have hall := h (c :: cs)
    rw [distance_cons, distance_cons]
    omega

/-- An edit takes no text further than one step away from any other. -/
theorem distance_le_of_edit {as bs : List Char} (h : Edit as bs) (cs : List Char) :
    distance as cs ≤ distance bs cs + 1 := by
  -- by induction on the characters in front of the edited one
  have behind {left right : List Char} (before : List Char)
      (hstart : ∀ cs, distance left cs ≤ distance right cs + 1) :
      ∀ cs, distance (before ++ left) cs ≤ distance (before ++ right) cs + 1 := by
    induction before with
    | nil => exact hstart
    | cons a before ih => exact distance_cons_le_of_forall ih a
  cases h with
  | insert before after c => exact behind before (distance_le_cons_left c after) cs
  | delete before after c => exact behind before (distance_cons_le c after) cs
  | substitute before after c d => exact behind before (distance_cons_le_cons_left c d after) cs

theorem distance_self (as : List Char) : distance as as = 0 := by
  induction as with
  | nil => rw [distance_nil, List.length_nil]
  | cons a as ih =>
    rw [distance_cons, ih, if_pos rfl]
    omega

theorem distance_le {n : Nat} {as bs : List Char} (h : Edits n as bs) : distance as bs ≤ n := by
  induction h with
  | refl as => rw [distance_self]
  | @step n as bs cs he _ ih =>
    have hstep := distance_le_of_edit he cs
    omega

/-- The distance is reached: the edits follow the recursion. -/
theorem edits_distance (as bs : List Char) : Edits (distance as bs) as bs := by
  fun_induction distance as bs with
  | case1 bs => exact insertAll bs
  | case2 a as => exact (insertAll (a :: as)).symm
  | case3 a as b bs ihDelete ihInsert ihSubstitute =>
    have hdelete := Edits.step (.delete [] as a) ihDelete
    have hinsert := ihInsert.trans (.step (.insert [] bs b) (.refl _))
    have hsubstitute : Edits (distance as bs + if a = b then 0 else 1) (a :: as) (b :: bs) := by
      split
      · next heq => exact heq ▸ ihSubstitute.cons a
      · exact (ihSubstitute.cons a).trans (.step (.substitute [] bs a b) (.refl _))
    exact (hdelete.least hinsert).least hsubstitute

theorem isLeast_distance (as bs : List Char) : IsLeast {n | Edits n as bs} (distance as bs) :=
  ⟨edits_distance as bs, fun _ h => distance_le h⟩

theorem distance_comm (as bs : List Char) : distance as bs = distance bs as :=
  Nat.le_antisymm (distance_le (edits_distance bs as).symm) (distance_le (edits_distance as bs).symm)

theorem distance_reverse (as bs : List Char) :
    distance as.reverse bs.reverse = distance as bs := by
  have hle (xs ys : List Char) : distance xs.reverse ys.reverse ≤ distance xs ys :=
    distance_le (edits_distance xs ys).reverse
  have hback := hle as.reverse bs.reverse
  rw [List.reverse_reverse, List.reverse_reverse] at hback
  exact Nat.le_antisymm (hle as bs) hback

theorem distance_eq_zero_iff {as bs : List Char} : distance as bs = 0 ↔ as = bs := by
  constructor
  · intro h
    have hnone := edits_distance as bs
    rw [h] at hnone
    exact hnone.eq_of_zero
  · rintro rfl
    exact distance_self as

theorem distance_triangle (as bs cs : List Char) :
    distance as cs ≤ distance as bs + distance bs cs :=
  distance_le ((edits_distance as bs).trans (edits_distance bs cs))

end Edits

namespace Suggestion

/-- The part of a row behind its first entries: the distances to a text of the beginnings of another
that go on from `seen`. All beginnings are read backwards. -/
def rowFrom (seen other : List Char) : List Char → List Nat
  | [] => []
  | a :: as => Edits.distance (a :: seen) other :: rowFrom (a :: seen) other as

/-- What one pass over the row above writes. -/
theorem nextRow_rowFrom (c : Char) (as seen other : List Char) :
    nextRow c as (rowFrom seen other as) (Edits.distance seen other)
        (Edits.distance seen (c :: other)) =
      rowFrom seen (c :: other) as := by
  induction as generalizing seen with
  | nil => rfl
  | cons a as ih =>
    have hentry : min (min (Edits.distance (a :: seen) other + 1)
        (Edits.distance seen (c :: other) + 1))
          (Edits.distance seen other + if a = c then 0 else 1) =
        Edits.distance (a :: seen) (c :: other) := by
      rw [Edits.distance_cons, min_comm (Edits.distance (a :: seen) other + 1)]
    rw [rowFrom, nextRow, hentry, ih, rowFrom]

/-- The whole row of the beginnings of a text. -/
def row (as other : List Char) : List Nat := Edits.distance [] other :: rowFrom [] other as

/-- The rows of a table, by what has been read of the longer text. -/
theorem rowAfter_row (as other cs : List Char) :
    rowAfter as (row as other) cs = row as (cs.reverse ++ other) := by
  induction cs generalizing other with
  | nil => rfl
  | cons c cs ih =>
    have hcorner : Edits.distance [] other + 1 = Edits.distance [] (c :: other) := by
      rw [Edits.distance_nil, Edits.distance_nil, List.length_cons]
    rw [row, rowAfter, hcorner, nextRow_rowFrom]
    rw [← row, ih, List.reverse_cons, List.append_assoc]
    rfl

theorem rowFrom_nil (seen as : List Char) :
    rowFrom seen [] as = List.range' (seen.length + 1) as.length := by
  induction as generalizing seen with
  | nil => rfl
  | cons a as ih =>
    rw [rowFrom, ih, Edits.distance_of_nil, List.length_cons, List.length_cons, List.range'_succ]

theorem row_nil (as : List Char) : row as [] = List.range (as.length + 1) := by
  rw [row, rowFrom_nil, Edits.distance_nil, List.range_eq_range', List.range'_succ]
  rfl

theorem getLastD_rowFrom (as seen other : List Char) :
    (rowFrom seen other as).getLastD (Edits.distance seen other) =
      Edits.distance (as.reverse ++ seen) other := by
  induction as generalizing seen with
  | nil => rfl
  | cons a as ih =>
    rw [rowFrom, List.getLastD_cons, ih, List.reverse_cons, List.append_assoc]
    rfl

theorem getLastD_rowAfter (short long : List Char) :
    (rowAfter short (List.range (short.length + 1)) long).getLastD 0 = Edits.distance short long := by
  rw [← row_nil, rowAfter_row, row, List.getLastD_cons, getLastD_rowFrom, List.append_nil,
    List.append_nil, Edits.distance_reverse]

theorem editDistance_eq (as bs : List Char) : editDistance as bs = Edits.distance as bs := by
  unfold editDistance
  by_cases h : as.length > bs.length
  · rw [if_pos h]
    exact (getLastD_rowAfter bs as).trans (Edits.distance_comm bs as)
  · rw [if_neg h]
    exact getLastD_rowAfter as bs

/-- The table gives the distance of the recursive definition, which is the least number of edits;
so it is a metric on texts. -/
theorem editDistance_least (as bs cs : List Char) :
    editDistance as bs = Edits.distance as bs ∧
      IsLeast {n | Edits n as bs} (editDistance as bs) ∧
      editDistance as bs = editDistance bs as ∧
      (editDistance as bs = 0 ↔ as = bs) ∧
      editDistance as cs ≤ editDistance as bs + editDistance bs cs := by
  rw [editDistance_eq as bs, editDistance_eq bs as, editDistance_eq bs cs, editDistance_eq as cs]
  exact ⟨rfl, Edits.isLeast_distance as bs, Edits.distance_comm as bs, Edits.distance_eq_zero_iff,
    Edits.distance_triangle as bs cs⟩

end Suggestion
end StackLisp
