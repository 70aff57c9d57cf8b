import StackLisp.Proofs.Places

/-! The grammar of data, and the reader as its recognizer. What is read are the tokens that the
grammar generates, and every text that it does not generate is refused at the first token that
cannot stand where it stands. -/
namespace StackLisp.Datum

/-- Tokens that spell data one behind the other: an atom is a token by itself, a list is data
between parentheses. -/
inductive Grammar : List Datum → List Token → Prop where
  | nil : Grammar [] []
  | atom {t ds ts} : t.IsAtom → Grammar ds ts → Grammar (.atom t :: ds) (t :: ts)
  | list {o c items inner ds ts} : o.kind = .opening → c.kind = .closing → Grammar items inner →
      Grammar ds ts → Grammar (.list o items c.stop :: ds) (o :: (inner ++ c :: ts))

mutual
/-- How deep lists nest in a datum. -/
def nesting : Datum → Nat
  | .atom _ => 0
  | .list _ items _ => nestingAll items + 1
termination_by structural d => d

/-- How deep lists nest in the deepest of several data. -/
def nestingAll : List Datum → Nat
  | [] => 0
  | d :: ds => max (nesting d) (nestingAll ds)
termination_by structural ds => ds
end

theorem nestingAll_le_iff {ds : List Datum} {n : Nat} :
    nestingAll ds ≤ n ↔ ∀ d ∈ ds, d.nesting ≤ n := by
  induction ds with
  | nil => simp [nestingAll]
  | cons d ds ih => rw [nestingAll, Nat.max_le, ih, List.forall_mem_cons]

theorem nestingAll_append (ds es : List Datum) :
    nestingAll (ds ++ es) = max (nestingAll ds) (nestingAll es) := by
  induction ds with
  | nil => simp [nestingAll]
  | cons d ds ih => rw [List.cons_append, nestingAll, nestingAll, ih, Nat.max_assoc]

/-- Tokens of a datum that has not ended: the parentheses in `opened`, innermost first, are open,
and behind each of them stand complete data. -/
inductive Unfinished (limit : Int) : List Token → List Token → Prop where
  | start : Unfinished limit [] []
  | opened {os front o ds inner} : Unfinished limit os front → o.kind = .opening →
      Grammar ds inner → nestingAll ds + os.length + 1 ≤ limit.toNat →
      Unfinished limit (o :: os) (front ++ o :: inner)

/-- Why a datum with the given open parentheses cannot go on with the tokens that are left. A text
that ends is reported at the innermost open parenthesis. -/
inductive Stops (limit : Int) : List Token → List Token → LocatedFault → Prop where
  | close {t rest} : t.kind = .closing →
      Stops limit [] (t :: rest) ⟨.unexpectedClose, t.start, t.stop⟩
  | quote {opened t rest} : t.kind = .quote →
      Stops limit opened (t :: rest) ⟨.quoteUnsupported, t.start, t.stop⟩
  | deep {opened t rest} : t.kind = .opening → limit < opened.length + 1 →
      Stops limit opened (t :: rest) ⟨.tooDeep limit, t.start, t.stop⟩
  | unclosed {o os} : Stops limit (o :: os) [] ⟨.unclosed, o.start, o.stop⟩

/-! ### Steps of the reader -/

section
variable {limit : Int} {ending : Ending} {t : Token} {rest : List Token}

theorem readWithin_atom (h : t.IsAtom) (l : Level) (outer : List Level) :
    readWithin limit ending (l :: outer) (t :: rest) =
      readWithin limit ending ({ l with items := .atom t :: l.items } :: outer) rest := by
  obtain ⟨hopening, hquote, hclosing⟩ := h
  rw [readWithin]
  cases hk : t.kind <;> first | exact absurd hk ‹_› | rfl

theorem readWithin_opening (h : t.kind = .opening) {levels : List Level}
    (hdepth : levels.length + 1 ≤ limit.toNat) :
    readWithin limit ending levels (t :: rest) =
      readWithin limit ending (⟨t, []⟩ :: levels) rest := by
  have hfits : ¬ (levels.length : Int) + 1 > limit := by omega
  simp only [readWithin, h, if_neg hfits]

theorem readWithin_closing (h : t.kind = .closing) (l m : Level) (outer : List Level) :
    readWithin limit ending (l :: m :: outer) (t :: rest) =
      readWithin limit ending
        ({ m with items := .list l.opening l.items.reverse t.stop :: m.items } :: outer) rest := by
  rw [readWithin, h]

end

theorem passed_finished (place : Position) (d : Datum) (rest : List Token) :
    passed (.finished place) d rest = .ok (d, rest) := by
  cases rest <;> rfl

/-- What is read in front of a fault of the scanner is read as well where there is none. -/
theorem readWithin_finished {limit : Int} {ending : Ending} {levels : List Level}
    {ts left : List Token} {d : Datum} (h : readWithin limit ending levels ts = .ok (d, left))
    (place : Position) : readWithin limit (.finished place) levels ts = .ok (d, left) := by
  fun_induction readWithin limit ending levels ts with
  | case1 | case2 | case4 | case5 => cases h
  | case3 levels t ts hk hdepth ih =>
    rw [readWithin_opening hk (by omega)]
    exact ih h
  | case6 t ts hk l e =>
    obtain ⟨rfl, rfl⟩ := passed_eq h
    rw [readWithin, hk]
    exact passed_finished place _ _
  | case7 t ts hk l e m outer ih =>
    rw [readWithin_closing hk]
    exact ih h
  | case8 t ts hopening hquote hclosing =>
    obtain ⟨rfl, rfl⟩ := passed_eq h
    rw [readWithin]
    cases hk : t.kind <;> first | exact absurd hk ‹_› | exact passed_finished place _ _
  | case9 t ts l outer hopening hquote hclosing ih =>
    rw [readWithin_atom ⟨hopening, hquote, hclosing⟩]
    exact ih h

namespace Grammar

variable {ds es : List Datum} {own more : List Token}

theorem append (h : Grammar ds own) (h' : Grammar es more) :
    Grammar (ds ++ es) (own ++ more) := by
  induction h with
  | nil => exact h'
  | atom ht _ ih => exact .atom ht ih
  | list ho hc hitems _ _ ih =>
    simpa [List.append_assoc] using Grammar.list ho hc hitems ih

/-- Behind data the reader goes on with as many open lists as before them. -/
theorem readWithin (h : Grammar ds own) {limit : Int} {ending : Ending} {l : Level}
    {outer : List Level} (hfit : nestingAll ds + outer.length + 1 ≤ limit.toNat)
    (rest : List Token) :
    readWithin limit ending (l :: outer) (own ++ rest) =
      Datum.readWithin limit ending ({ l with items := ds.reverse ++ l.items } :: outer) rest := by
  induction h generalizing l outer rest with
  | nil => rfl
  | @atom t ds ts ht _ ih =>
    rw [nestingAll] at hfit
    rw [List.cons_append, readWithin_atom ht, ih (by omega)]
    simp
  | @list o c items inner ds ts ho hc _ _ ihitems ih =>
    rw [nestingAll, nesting] at hfit
    have hopen : (l :: outer).length + 1 ≤ limit.toNat := by
      rw [List.length_cons]
      omega
    have hinner : nestingAll items + (l :: outer).length + 1 ≤ limit.toNat := by
      rw [List.length_cons]
      omega
    rw [List.cons_append, readWithin_opening ho hopen, List.append_assoc, ihitems hinner,
      List.cons_append, readWithin_closing hc, ih (by omega)]
    simp

/-- Reading gives the datum whose tokens stand first. -/
theorem read {d : Datum} (h : Grammar [d] own) {limit : Int} (hfit : d.nesting ≤ limit.toNat)
    (place : Position) (rest : List Token) :
    Datum.read limit (.finished place) (own ++ rest) = .ok (d, rest) := by
  unfold Datum.read
  cases h with
  | @atom t _ ts ht hnil =>
    cases hnil
    obtain ⟨hopening, hquote, hclosing⟩ := ht
    rw [List.singleton_append, Datum.readWithin]
    cases hk : t.kind <;> first | exact absurd hk ‹_› | exact passed_finished place _ rest
  | @list o c items inner _ ts ho hc hitems hnil =>
    cases hnil
    rw [nesting] at hfit
    have hopen : ([] : List Level).length + 1 ≤ limit.toNat := by
      rw [List.length_nil]
      omega
    rw [List.cons_append, readWithin_opening ho hopen, List.append_assoc,
      hitems.readWithin (by rw [List.length_nil]; omega), List.singleton_append,
      Datum.readWithin, hc]
    simpa using passed_finished place _ rest

/-- A datum can be read from its tokens in one way only. -/
theorem unique {d e : Datum} {left right : List Token} (hd : Grammar [d] own)
    (he : Grammar [e] more) (h : own ++ left = more ++ right) : d = e ∧ own = more := by
  -- one limit under which both are read
  have hread : Datum.read (max d.nesting e.nesting : Nat) (.finished {}) (own ++ left) =
      .ok (d, left) := hd.read (by omega) {} left
  rw [h, he.read (by omega) {} right] at hread
  cases hread
  exact ⟨rfl, List.append_cancel_right h⟩

theorem tokens_eq (h : Grammar ds own) :
    ds.flatMap tokens = own.filter fun t => t.kind ≠ .closing := by
  induction h with
  | nil => rfl
  | atom ht _ ih => simp [tokens, ht.2.2, ih]
  | list ho hc _ _ ihitems ih => simp [tokens_list, ho, hc, ihitems, ih]

theorem stop_eq {d : Datum} (h : Grammar [d] own) :
    own.getLast?.map Token.stop = some d.stop := by
  cases h with
  | atom _ hnil =>
    cases hnil
    rfl
  | list _ _ _ hnil =>
    cases hnil
    rw [← List.cons_append, List.getLast?_concat]
    rfl

end Grammar

/-- Whatever an unfinished datum goes on with, the reader comes there with its lists open. -/
theorem Unfinished.readWithin {limit : Int} {opened front : List Token}
    (h : Unfinished limit opened front) (ending : Ending) (rest : List Token) :
    ∃ levels, levels.map Level.opening = opened ∧
      readWithin limit ending [] (front ++ rest) = readWithin limit ending levels rest := by
  induction h generalizing rest with
  | start => exact ⟨[], rfl, rfl⟩
  | @opened os front o ds inner _ ho hds hfit ih =>
    obtain ⟨levels, hlevels, hread⟩ := ih (o :: (inner ++ rest))
    have hlen : levels.length = os.length := by rw [← hlevels, List.length_map]
    refine ⟨⟨o, ds.reverse ++ []⟩ :: levels, by simp [hlevels], ?_⟩
    rw [List.append_assoc, List.cons_append, hread, readWithin_opening ho (by omega),
      hds.readWithin (by omega)]

theorem Stops.read {limit : Int} {opened front rest : List Token} {f : LocatedFault}
    (h : Stops limit opened rest f) (hfront : Unfinished limit opened front) (place : Position) :
    Datum.read limit (.finished place) (front ++ rest) = .error f := by
  obtain ⟨levels, hlevels, hread⟩ := hfront.readWithin (.finished place) rest
  rw [Datum.read, hread]
  cases h with
  | close hk =>
    obtain rfl := List.map_eq_nil_iff.1 hlevels
    rw [Datum.readWithin, hk]
  | quote hk => simp only [Datum.readWithin, hk]
  | deep hk hdeep =>
    have hlen : levels.length = opened.length := by rw [← hlevels, List.length_map]
    simp only [Datum.readWithin, hk]
    exact if_pos (by omega)
  | unclosed =>
    obtain ⟨l, outer, rfl, rfl, -⟩ := List.map_eq_cons_iff.1 hlevels
    rfl

/-! ### Tokens begin with a datum, or with an unfinished one that cannot go on -/

theorem Unfinished.eq_nil {limit : Int} {front : List Token} (h : Unfinished limit [] front) :
    front = [] := by
  cases h
  rfl

/-- Data may follow behind an open parenthesis. -/
theorem Unfinished.extend {limit : Int} {o : Token} {os front more : List Token}
    {es : List Datum} (h : Unfinished limit (o :: os) front) (hes : Grammar es more)
    (hfit : nestingAll es + os.length + 1 ≤ limit.toNat) :
    Unfinished limit (o :: os) (front ++ more) := by
  cases h with
  | opened hfront ho hds hnest =>
    rw [List.append_assoc, List.cons_append]
    refine .opened hfront ho (hds.append hes) ?_
    rw [nestingAll_append]
    omega

theorem accepted_or_stopped {limit : Int} {opened front : List Token}
    (h : Unfinished limit opened front) {ts : List Token} (hne : front ++ ts ≠ []) :
    (∃ d own rest, front ++ ts = own ++ rest ∧ Grammar [d] own ∧ d.nesting ≤ limit.toNat) ∨
    (∃ os seen rest f, front ++ ts = seen ++ rest ∧ Unfinished limit os seen ∧
      Stops limit os rest f) := by
  induction ts generalizing opened front with
  | nil =>
    cases opened with
    | nil => exact absurd h.eq_nil (by simpa using hne)
    | cons o os => exact .inr ⟨_, _, [], _, rfl, h, .unclosed⟩
  | cons t rest ih =>
    -- the state behind a token that the datum goes on with
    have go {os seen : List Token} (hseen : Unfinished limit os seen)
        (heq : seen = front ++ [t]) := by
      have hnext := ih hseen (by simp [heq])
      rwa [heq, List.append_assoc, List.singleton_append] at hnext
    by_cases hopening : t.kind = .opening
    · by_cases hdeep : limit < opened.length + 1
      · exact .inr ⟨_, _, _, _, rfl, h, .deep hopening hdeep⟩
      · have hfit : nestingAll [] + opened.length + 1 ≤ limit.toNat := by
          rw [nestingAll]
          omega
        exact go (.opened h hopening .nil hfit) rfl
    by_cases hquote : t.kind = .quote
    · exact .inr ⟨_, _, _, _, rfl, h, .quote hquote⟩
    by_cases hclosing : t.kind = .closing
    · cases h with
      | start => exact .inr ⟨_, _, _, _, rfl, .start, .close hclosing⟩
      | @opened os outer o ds inner houter ho hds hfit =>
        have hlist : Grammar [.list o ds t.stop] (o :: (inner ++ [t])) :=
          .list ho hclosing hds .nil
        have hnest : nestingAll [.list o ds t.stop] = nestingAll ds + 1 := by
          simp [nestingAll, nesting]
        cases os with
        | nil =>
          obtain rfl := houter.eq_nil
          refine .inl ⟨_, _, rest, ?_, hlist, ?_⟩
          · simp
          · rw [nesting]
            omega
        | cons p os =>
          rw [List.length_cons] at hfit
          exact go (houter.extend hlist (by omega)) (by simp)
    · have hatom : t.IsAtom := ⟨hopening, hquote, hclosing⟩
      have hone : Grammar [.atom t] [t] := .atom hatom .nil
      cases opened with
      | nil =>
        obtain rfl := h.eq_nil
        exact .inl ⟨_, _, rest, rfl, hone, Nat.zero_le _⟩
      | cons o os =>
        have hfit : nestingAll [.atom t] + os.length + 1 ≤ limit.toNat := by
          cases h with
          | opened _ _ _ hfit =>
            simp only [nestingAll, nesting, Nat.max_self, Nat.zero_add]
            omega
        exact go (h.extend hone hfit) rfl

/-- The reader, started at the token `t`, recognizes the grammar. -/
structure Recognizes (limit : Int) (place : Position) (t : Token) (ts : List Token) : Prop where
  /-- It succeeds exactly on a datum that does not nest too deep, and stops behind its tokens. A
  limit below zero is as strict as zero: it leaves the atoms. -/
  accepts : ∀ d rest, read limit (.finished place) (t :: ts) = .ok (d, rest) ↔
    ∃ own, t :: ts = own ++ rest ∧ Grammar [d] own ∧ d.nesting ≤ limit.toNat
  /-- The datum holds its tokens in their order, and ends where the last of them ends. -/
  flattens : ∀ d own, Grammar [d] own →
    d.tokens = own.filter (fun t => t.kind ≠ .closing) ∧ own.getLast?.map Token.stop = some d.stop
  /-- No other datum begins with these tokens. -/
  unique : ∀ d own rest e more left, t :: ts = own ++ rest → t :: ts = more ++ left →
    Grammar [d] own → Grammar [e] more → d = e ∧ own = more ∧ rest = left
  /-- Otherwise there is one fault: that of the first token that cannot follow, or of the innermost
  parenthesis that is still open at the end. -/
  refuses : ∀ f, read limit (.finished place) (t :: ts) = .error f ↔
    ∃ opened front rest, t :: ts = front ++ rest ∧ Unfinished limit opened front ∧
      Stops limit opened rest f
  records : ∀ f found, found < Program.mostFaults →
    read limit (.finished place) (t :: ts) = .error f →
    Program.readFrom limit (.finished place) found (t :: ts) = ⟨[], [f]⟩
  /-- Inside open lists a datum leaves the reader at the same depth. -/
  restores : ∀ level outer d own rest, t :: ts = own ++ rest → Grammar [d] own →
    d.nesting + outer.length + 1 ≤ limit.toNat →
    readWithin limit (.finished place) (level :: outer) (t :: ts) =
      readWithin limit (.finished place) ({ level with items := d :: level.items } :: outer) rest
  /-- Lists side by side do not add up: a list is read if each of its items fits one level down. -/
  siblings : ∀ c ds inner rest, t :: ts = t :: (inner ++ c :: rest) → t.kind = .opening →
    c.kind = .closing → Grammar ds inner →
    (read limit (.finished place) (t :: ts) = .ok (.list t ds c.stop, rest) ↔
      1 ≤ limit ∧ ∀ d ∈ ds, d.nesting + 1 ≤ limit.toNat)

theorem read_ok_iff {limit : Int} {place : Position} {ts rest : List Token} {d : Datum}
    (hne : ts ≠ []) : read limit (.finished place) ts = .ok (d, rest) ↔
      ∃ own, ts = own ++ rest ∧ Grammar [d] own ∧ d.nesting ≤ limit.toNat := by
  constructor
  · intro h
    rcases accepted_or_stopped (.start : Unfinished limit [] []) hne with
      ⟨e, own, left, heq, he, hfit⟩ | ⟨os, seen, left, f, heq, hseen, hstop⟩
    · rw [List.nil_append] at heq
      rw [heq, he.read hfit] at h
      cases h
      exact ⟨own, heq, he, hfit⟩
    · rw [List.nil_append] at heq
      rw [heq, hstop.read hseen] at h
      cases h
  · rintro ⟨own, rfl, hd, hfit⟩
    exact hd.read hfit place rest

theorem read_error_iff {limit : Int} {place : Position} {ts : List Token} {f : LocatedFault}
    (hne : ts ≠ []) : read limit (.finished place) ts = .error f ↔
      ∃ opened front rest, ts = front ++ rest ∧ Unfinished limit opened front ∧
        Stops limit opened rest f := by
  constructor
  · intro h
    rcases accepted_or_stopped (.start : Unfinished limit [] []) hne with
      ⟨e, own, left, heq, he, hfit⟩ | ⟨os, seen, left, g, heq, hseen, hstop⟩
    · rw [List.nil_append] at heq
      rw [heq, he.read hfit] at h
      cases h
    · rw [List.nil_append] at heq
      rw [heq, hstop.read hseen] at h
      cases h
      exact ⟨os, seen, left, heq, hseen, hstop⟩
  · rintro ⟨opened, front, rest, rfl, hfront, hstop⟩
    exact hstop.read hfront place

/-- The reader accepts exactly the grammar of data, from every token on and with every limit. -/
theorem read_recognizes (limit : Int) (place : Position) (t : Token) (ts : List Token) :
    Recognizes limit place t ts where
  accepts d rest := read_ok_iff (List.cons_ne_nil t ts)
  flattens d own h := ⟨by simpa using h.tokens_eq, h.stop_eq⟩
  unique d own rest e more left hown hmore hd he := by
    obtain ⟨rfl, rfl⟩ := hd.unique he (hown.symm.trans hmore)
    exact ⟨rfl, rfl, List.append_cancel_left (hown.symm.trans hmore)⟩
  refuses f := read_error_iff (List.cons_ne_nil t ts)
  records f found hfound h := by
    rw [Program.readFrom, if_neg (Nat.not_le_of_lt hfound)]
    split
    · next g hg =>
      cases hg.symm.trans h
      rfl
    · next hok => cases hok.symm.trans h
  restores level outer d own rest hown hd hfit := by
    have hall : nestingAll [d] = d.nesting := by simp [nestingAll]
    rw [hown, hd.readWithin (by omega)]
    rfl
  siblings c ds inner rest heq ho hc hds := by
    have hlist : Grammar [.list t ds c.stop] (t :: (inner ++ [c])) := .list ho hc hds .nil
    have hown : t :: ts = (t :: (inner ++ [c])) ++ rest := by simp [heq]
    rw [read_ok_iff (List.cons_ne_nil t ts)]
    constructor
    · rintro ⟨own, -, -, hfit⟩
      rw [nesting] at hfit
      have hbound : nestingAll ds ≤ limit.toNat - 1 := by omega
      refine ⟨by omega, fun d hd => ?_⟩
      have hle := nestingAll_le_iff.1 hbound d hd
      omega
    · rintro ⟨hone, hfit⟩
      have hbound : nestingAll ds ≤ limit.toNat - 1 := by
        refine nestingAll_le_iff.2 fun d hd => ?_
        have hle := hfit d hd
        omega
      refine ⟨_, hown, hlist, ?_⟩
      rw [nesting]
      omega

example : (Program.read { depth := 2 } (Text.lit "(f (g) (h 1) (g))")).faults = [] := by
  decide +kernel

example : (Program.read { depth := 2 } (Text.lit "(f (g) (h (1)) (g))")).faults.map
    LocatedFault.fault = [.tooDeep 2] := by
  decide +kernel

end StackLisp.Datum
