import StackLisp.Datum

/-! Reading of tokens as data. -/
namespace StackLisp.Datum

/-- A list that is still open: its parenthesis and its items so far, the last one first. -/
structure Level where
  opening : Token
  items : List Datum

/-- The fault of a text that ends while the given lists are open. -/
def atEnd (ending : Ending) (levels : List Level) : LocatedFault :=
  match ending, levels with
  | .failed f, _ => f.located
  | .finished p, [] => ⟨.unexpectedEnd, p, p⟩
  | .finished _, l :: _ => ⟨.unclosed, l.opening.start, l.opening.stop⟩

/-- A datum can be passed only if the text behind it can be scanned. -/
def passed (ending : Ending) (d : Datum) (rest : List Token) :
    Except LocatedFault (Datum × List Token) :=
  match rest, ending with
  | [], .failed f => .error f.located
  | _, _ => .ok (d, rest)

/-- Reads the datum whose open lists are `levels`, innermost first, and returns the tokens behind
it. Lists nest at most `limit` deep. -/
def readWithin (limit : Int) (ending : Ending) :
    List Level → List Token → Except LocatedFault (Datum × List Token)
  | levels, [] => .error (atEnd ending levels)
  | levels, t :: rest =>
    match t.kind with
    | .opening =>
      if (levels.length : Int) + 1 > limit then .error ⟨.tooDeep limit, t.start, t.stop⟩
      else readWithin limit ending (⟨t, []⟩ :: levels) rest
    | .quote => .error ⟨.quoteUnsupported, t.start, t.stop⟩
    | .closing =>
      match levels with
      | [] => .error ⟨.unexpectedClose, t.start, t.stop⟩
      | l :: outer =>
        let d := Datum.list l.opening l.items.reverse t.stop
        match outer with
        | [] => passed ending d rest
        | m :: outer => readWithin limit ending ({ m with items := d :: m.items } :: outer) rest
    | _ =>
      match levels with
      | [] => passed ending (.atom t) rest
      | l :: outer => readWithin limit ending ({ l with items := .atom t :: l.items } :: outer) rest

/-- Reads one datum. -/
def read (limit : Int) (ending : Ending) (ts : List Token) :
    Except LocatedFault (Datum × List Token) :=
  readWithin limit ending [] ts

theorem passed_rest {ending : Ending} {d e : Datum} {rest left : List Token}
    (h : passed ending d rest = .ok (e, left)) : left = rest := by
  unfold passed at h
  split at h <;> simp_all

theorem length_readWithin {limit : Int} {ending : Ending} {levels : List Level}
    {ts rest : List Token} {d : Datum} (h : readWithin limit ending levels ts = .ok (d, rest)) :
    rest.length < ts.length := by
  fun_induction readWithin limit ending levels ts with
  | case1 => simp at h
  | case2 => simp at h
  | case3 levels t ts hk hd ih => exact Nat.lt_succ_of_lt (ih h)
  | case4 => simp at h
  | case5 => simp at h
  | case6 => rw [passed_rest h]; exact Nat.lt_succ_self _
  | case7 t ts hk l d m outer ih => exact Nat.lt_succ_of_lt (ih h)
  | case8 => rw [passed_rest h]; exact Nat.lt_succ_self _
  | case9 t ts hk h1 h2 l outer ih => exact Nat.lt_succ_of_lt (ih h)

end StackLisp.Datum
