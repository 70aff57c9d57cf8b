import StackLisp.Proofs.Rescanning

/-! Texts that continue behind a line end. A text without faults keeps its tokens and their places
whatever follows on the next line, so its forms stay in front of those of the rest. There is one
exception: a form counts as read only once the token behind it is scanned, so that the last form is
lost if the rest starts with a fault of the scanner. -/
namespace StackLisp

open Text (Glyph glyphs lit)

/-- The place behind a text. -/
def Position.past (p : Position) (text : Bytes) : Position := (glyphs text).foldl Position.after p

/-- The scanner fails before it has found a token. -/
def Tokens.failsAtOnce : Tokens → Bool
  | ⟨[], .failed _⟩ => true
  | _ => false

theorem Tokens.eq_of_failsAtOnce {ts : Tokens} (h : ts.failsAtOnce = true) :
    ∃ f, ts = ⟨[], .failed f⟩ := by
  obtain ⟨list, ending⟩ := ts
  cases list with
  | nil =>
    cases ending with
    | finished place => cases h
    | failed f => exact ⟨f, rfl⟩
  | cons t list => cases h

namespace Token

/-! ### Scanning across a line end -/

/-- The end of a line. -/
def lineEnd : Glyph := ⟨'\n', [10]⟩

variable {gs left more : List Glyph} {g : Glyph} {p q start : Position}

theorem skipBlank_lineEnd (comment : Bool) (more : List Glyph) (p : Position) :
    skipBlank comment (lineEnd :: more) p = skipBlank false more (p.after lineEnd) := by
  cases comment with
  | true => rfl
  | false => rfl

/-- A line end ends a comment and is white space otherwise. -/
theorem skipBlank_append_lineEnd {comment : Bool} (h : skipBlank comment gs p = ([], q)) :
    skipBlank comment (gs ++ lineEnd :: more) p = skipBlank false more (q.after lineEnd) := by
  fun_induction skipBlank comment gs p with
  | case1 comment p =>
    cases h
    exact skipBlank_lineEnd comment more q
  | case2 p g gs ih => exact ih h
  | case3 p g gs hcomment ih =>
    rw [List.cons_append, skipBlank, if_pos hcomment]
    exact ih h
  | case4 p g gs hcomment hblank ih =>
    rw [List.cons_append, skipBlank, if_neg hcomment, if_pos hblank]
    exact ih h
  | case5 => cases h

theorem skipBlank_append {comment : Bool} (h : skipBlank comment gs p = (g :: left, q)) :
    skipBlank comment (gs ++ more) p = (g :: (left ++ more), q) := by
  fun_induction skipBlank comment gs p with
  | case1 => cases h
  | case2 p g gs ih => exact ih h
  | case3 p g gs hcomment ih =>
    rw [List.cons_append, skipBlank, if_pos hcomment]
    exact ih h
  | case4 p g gs hcomment hblank ih =>
    rw [List.cons_append, skipBlank, if_neg hcomment, if_pos hblank]
    exact ih h
  | case5 p g gs hcomment hblank =>
    cases h
    rw [List.cons_append, skipBlank, if_neg hcomment, if_neg hblank]

/-- A line end ends an atom. -/
theorem spanAtom_append_lineEnd (gs more : List Glyph) (p : Position) :
    spanAtom (gs ++ lineEnd :: more) p =
      ((spanAtom gs p).1, (spanAtom gs p).2.1 ++ lineEnd :: more, (spanAtom gs p).2.2) := by
  induction gs generalizing p with
  | nil => rfl
  | cons g gs ih =>
    rw [List.cons_append, spanAtom, spanAtom]
    by_cases hdelimiter : isDelimiter g.char = true
    · rw [if_pos hdelimiter, if_pos hdelimiter]
      rfl
    · rw [if_neg hdelimiter, if_neg hdelimiter, ih]

theorem scanString_append {text : Bytes} (h : scanString start gs p = .ok (text, left, q)) :
    scanString start (gs ++ more) p = .ok (text, left ++ more, q) := by
  fun_induction scanString start gs p generalizing text left q with
  | case1 | case3 | case4 => cases h
  | case2 p g gs hquote =>
    cases h
    rw [List.cons_append, scanString.eq_def]
    exact if_pos hquote
  | case5 g p hquote hbackslash e gs c hescape ih =>
    obtain ⟨⟨tail, left', q'⟩, htail, hout⟩ := Except.ok_of_bind h
    cases hout
    rw [List.cons_append, List.cons_append, scanString, if_neg hquote, if_pos hbackslash]
    simp only [hescape, ih htail]
    rfl
  | case6 g gs p hquote hbackslash ih =>
    obtain ⟨⟨tail, left', q'⟩, htail, hout⟩ := Except.ok_of_bind h
    cases hout
    rw [List.cons_append, scanString.eq_def]
    dsimp only
    rw [if_neg hquote, if_neg hbackslash, ih htail]
    rfl

theorem scanCharacter_append_lineEnd {text : Bytes}
    (h : scanCharacter start gs p = .ok (text, left, q)) :
    scanCharacter start (gs ++ lineEnd :: more) p = .ok (text, left ++ lineEnd :: more, q) := by
  cases gs with
  | nil => cases h
  | cons g gs =>
    by_cases hbackslash : g.char = '\\'
    · cases gs with
      | nil =>
        rw [scanCharacter, if_neg (not_not_intro hbackslash)] at h
        cases h
      | cons c gs =>
        rw [List.cons_append, List.cons_append]
        rw [scanCharacter, if_neg (not_not_intro hbackslash)] at h ⊢
        rw [spanAtom_append_lineEnd]
        dsimp only at h ⊢
        split at h
        · next htail =>
          cases h
          rw [if_pos htail]
        · next htail =>
          rw [if_neg htail]
          split at h
          · cases h
            rfl
          · cases h
    · rw [scanCharacter.eq_def] at h
      dsimp only at h
      rw [if_pos hbackslash] at h
      cases h

/-- A token that ends before a line end is the same token whatever follows. -/
theorem scanToken_append_lineEnd {t : Token} (h : scanToken g gs p = .ok (t, left, q)) :
    scanToken g (gs ++ lineEnd :: more) p = .ok (t, left ++ lineEnd :: more, q) := by
  unfold scanToken at h ⊢
  by_cases hopening : g.char = '('
  · rw [if_pos hopening] at h ⊢
    cases h
    rfl
  by_cases hclosing : g.char = ')'
  · rw [if_neg hopening, if_pos hclosing] at h ⊢
    cases h
    rfl
  by_cases hquote : g.char = '\''
  · rw [if_neg hopening, if_neg hclosing, if_pos hquote] at h ⊢
    cases h
    rfl
  rw [if_neg hopening, if_neg hclosing, if_neg hquote] at h ⊢
  by_cases hstring : g.char = '"'
  · rw [if_pos hstring] at h ⊢
    obtain ⟨⟨text, left', q'⟩, hscan, hout⟩ := Except.ok_of_bind h
    cases hout
    rw [scanString_append hscan]
    rfl
  by_cases hhash : g.char = '#'
  · rw [if_neg hstring, if_pos hhash] at h ⊢
    obtain ⟨⟨text, left', q'⟩, hscan, hout⟩ := Except.ok_of_bind h
    cases hout
    rw [scanCharacter_append_lineEnd hscan]
    rfl
  · rw [if_neg hstring, if_neg hhash] at h ⊢
    rw [spanAtom_append_lineEnd]
    cases h
    rfl

/-- The tokens of a text that can be scanned to its end come in front of those of the next line. -/
theorem scanFrom_append_lineEnd (h : (scanFrom gs p).ending = .finished q) :
    scanFrom (gs ++ lineEnd :: more) p =
      (scanFrom more (q.after lineEnd)).behind (scanFrom gs p).list := by
  fun_induction scanFrom gs p with
  | case1 gs p r hblank =>
    cases h
    have hskip : skipBlank false (gs ++ lineEnd :: more) p =
        skipBlank false more (q.after lineEnd) := skipBlank_append_lineEnd hblank
    exact scanFrom_congr hskip
  | case2 => cases h
  | case3 gs p g rest r hblank t left s htoken ts ih =>
    have hskip : skipBlank false (gs ++ lineEnd :: more) p = (g :: (rest ++ lineEnd :: more), r) :=
      skipBlank_append hblank
    rw [scanFrom_of_token hskip (scanToken_append_lineEnd htoken), ih h, Tokens.behind_behind]
    rfl

theorem Ahead.place {gs left : List Glyph} {p q : Position} (h : Ahead gs p left q) :
    ∃ front, gs = front ++ left ∧ q = front.foldl Position.after p := by
  induction h with
  | here => exact ⟨[], rfl, rfl⟩
  | @next g rest r _ ih =>
    obtain ⟨front, rfl, rfl⟩ := ih
    refine ⟨front ++ [g], ?_, ?_⟩
    · rw [List.append_assoc, List.singleton_append]
    · rw [List.foldl_append, List.foldl_cons, List.foldl_nil]

/-- A text that can be scanned ends behind its last character. -/
theorem scanFrom_place (h : (scanFrom gs p).ending = .finished q) :
    q = gs.foldl Position.after p := by
  have hahead : Ahead gs p [] q := by
    fun_induction scanFrom gs p with
    | case1 gs p r hblank =>
      cases h
      have hskip := ahead_skipBlank false gs p
      rwa [hblank] at hskip
    | case2 => cases h
    | case3 gs p g rest r hblank t left s htoken ts ih =>
      have hskip := ahead_skipBlank false gs p
      rw [hblank] at hskip
      exact (hskip.trans (scanToken_cases htoken).1.skip).trans (ih h)
  obtain ⟨front, hfront, hq⟩ := hahead.place
  rw [hfront, List.append_nil]
  exact hq

/-- The tokens of a text that can be scanned, with more text on the next line. -/
theorem scan_append_line {file front rest : Bytes}
    (h : (scan file front).ending = .finished q) :
    scan file (front ++ 10 :: rest) =
      (scanFrom (glyphs rest) (({ file } : Position).past (front ++ [10]))).behind
        (scan file front).list := by
  have hfresh : Text.StartsFresh (10 :: rest) := by
    rintro b ⟨⟩
    decide
  have hend : Text.StartsFresh [10] := by
    rintro b ⟨⟩
    decide
  have hline (rest : Bytes) : glyphs (10 :: rest) = lineEnd :: glyphs rest :=
    Text.glyphs_ascii (by decide) rest
  have hplace : ({ file } : Position).past (front ++ [10]) = q.after lineEnd := by
    rw [Position.past, Text.glyphs_append hend, List.foldl_append, ← scanFrom_place h, hline]
    rfl
  rw [scan, Text.glyphs_append hfresh, hline, hplace]
  exact scanFrom_append_lineEnd h

end Token

/-! ### Reading on -/

/-- A datum that ends before more tokens is the same datum whatever they are. Whether it can be
passed depends on them. -/
theorem Datum.readWithin_append {limit : Int} {place : Position} {levels : List Level}
    {ts left : List Token} {d : Datum}
    (h : readWithin limit (.finished place) levels ts = .ok (d, left)) (ending : Ending)
    (more : List Token) :
    readWithin limit ending levels (ts ++ more) = passed ending d (left ++ more) := by
  fun_induction readWithin limit (.finished place) levels ts with
  | case1 | case2 | case4 | case5 => cases h
  | case3 levels t ts hk hdepth ih =>
    rw [List.cons_append, readWithin_opening hk (by omega)]
    exact ih h
  | case6 t ts hk l e =>
    obtain ⟨hd, rfl⟩ := passed_eq h
    rw [List.cons_append, readWithin, hk, hd]
  | case7 t ts hk l e m outer ih =>
    rw [List.cons_append, readWithin_closing hk]
    exact ih h
  | case8 t ts hopening hquote hclosing =>
    rw [passed_finished] at h
    cases h
    rw [List.cons_append, readWithin]
    cases hk : t.kind <;> first | exact absurd hk ‹_› | rfl
  | case9 t ts l outer hopening hquote hclosing ih =>
    rw [List.cons_append, readWithin_atom ⟨hopening, hquote, hclosing⟩]
    exact ih h

/-- A datum is passed unless the scanner fails right behind it. -/
theorem Datum.passed_of_scanned {ts : Tokens} (h : ts.failsAtOnce = false) (d : Datum)
    (left : List Token) : passed ts.ending d (left ++ ts.list) = .ok (d, left ++ ts.list) := by
  obtain ⟨list, ending⟩ := ts
  cases ending with
  | finished place => exact passed_finished place d _
  | failed f =>
    cases list with
    | nil => cases h
    | cons t list =>
      cases left with
      | nil => rfl
      | cons t' left => rfl

namespace Program

variable {limit : Int} {ending : Ending} {found : Nat} {t : Token} {rest : List Token}

theorem readFrom_of_fault {f : LocatedFault} (hfew : ¬ mostFaults ≤ found)
    (hread : Datum.read limit ending (t :: rest) = .error f) :
    readFrom limit ending found (t :: rest) = ⟨[], [f]⟩ := by
  rw [readFrom, if_neg hfew]
  split
  · next h =>
    cases h.symm.trans hread
    rfl
  · next h => cases h.symm.trans hread

/-- A text is read without a fault only if it can be scanned. -/
theorem finished_of_faults {ts : List Token} (hfew : ¬ mostFaults ≤ found)
    (h : (readFrom limit ending found ts).faults = []) : ∃ place, ending = .finished place := by
  fun_induction readFrom limit ending found ts with
  | case1 found place hending => exact ⟨place, hending⟩
  | case2 | case4 | case5 => cases h
  | case3 found t rest hmany => exact absurd hmany hfew
  | case6 found t rest _ d left hread e he p ih => exact ih hfew h

/-- The forms of tokens that are read without a fault come in front of those of the tokens that
follow. -/
theorem readFrom_append {place : Position} {ts : List Token} {more : Tokens}
    (hfew : ¬ mostFaults ≤ found) (hmore : more.failsAtOnce = false)
    (h : (readFrom limit (.finished place) found ts).faults = []) :
    readFrom limit more.ending found (ts ++ more.list) =
      ⟨(readFrom limit (.finished place) found ts).forms ++
          (readFrom limit more.ending found more.list).forms,
        (readFrom limit more.ending found more.list).faults⟩ := by
  fun_induction readFrom limit (.finished place) found ts with
  | case1 => rfl
  | case2 | case4 | case5 => cases h
  | case3 found t rest hmany => exact absurd hmany hfew
  | case6 found t rest _ d left hread e he p ih =>
    have happend : Datum.read limit more.ending (t :: (rest ++ more.list)) =
        .ok (d, left ++ more.list) :=
      (Datum.readWithin_append hread more.ending more.list).trans
        (Datum.passed_of_scanned hmore d left)
    rw [List.cons_append, readFrom_of_form hfew happend he, ih hfew h]
    rfl

theorem forms_ne_nil {place : Position} {ts : List Token} (hfew : ¬ mostFaults ≤ found)
    (hne : ts ≠ []) (h : (readFrom limit (.finished place) found ts).faults = []) :
    (readFrom limit (.finished place) found ts).forms ≠ [] := by
  fun_induction readFrom limit (.finished place) found ts with
  | case1 => exact absurd rfl hne
  | case2 | case4 | case5 => cases h
  | case3 found t rest hmany => exact absurd hmany hfew
  | case6 => exact List.cons_ne_nil _ _

/-- If the scanner fails right behind the tokens, their last form cannot be passed. -/
theorem readFrom_before_fault {place : Position} {ts : List Token} {f : ScanFault}
    (hfew : ¬ mostFaults ≤ found) (h : (readFrom limit (.finished place) found ts).faults = []) :
    readFrom limit (.failed f) found ts =
      ⟨(readFrom limit (.finished place) found ts).forms.dropLast, [f.located]⟩ := by
  fun_induction readFrom limit (.finished place) found ts with
  | case1 => rw [readFrom, List.dropLast_nil]
  | case2 | case4 | case5 => cases h
  | case3 found t rest hmany => exact absurd hmany hfew
  | case6 found t rest _ d left hread e he p ih =>
    have happend : Datum.read limit (.failed f) (t :: rest) = Datum.passed (.failed f) d left := by
      have hall := Datum.readWithin_append hread (.failed f) []
      rwa [List.append_nil, List.append_nil] at hall
    cases left with
    | nil =>
      have hforms : p.forms = [] := by
        have hp : p = readFrom limit (.finished place) found [] := rfl
        rw [hp, readFrom]
      rw [readFrom_of_fault hfew happend, hforms]
      rfl
    | cons t' left =>
      have hforms : p.forms ≠ [] := forms_ne_nil hfew (List.cons_ne_nil t' left) h
      rw [readFrom_of_form hfew happend he, ih hfew h, List.dropLast_cons_of_ne_nil hforms]

/-- The forms of a text without faults come in front of the forms of the next lines, at the same
places. If the next lines start with a fault of the scanner, the last form is lost. -/
theorem read_append_line {options : ReadOptions} {front : Bytes}
    (h : (read options front).faults = []) (rest : Bytes) :
    let more := Token.scanFrom (glyphs rest)
      (({ file := options.filename } : Position).past (front ++ [10]))
    let kept := if more.failsAtOnce then (read options front).forms.dropLast
      else (read options front).forms
    read options (front ++ 10 :: rest) =
      ⟨kept ++ (ofTokens options.depth more).forms, (ofTokens options.depth more).faults⟩ := by
  intro more kept
  have hfew : ¬ mostFaults ≤ 0 := by decide
  obtain ⟨place, hplace⟩ := finished_of_faults hfew h
  have hscan : Token.scan options.filename (front ++ 10 :: rest) =
      more.behind (Token.scan options.filename front).list := Token.scan_append_line hplace
  have hfront : read options front =
      readFrom options.depth (.finished place) 0 (Token.scan options.filename front).list := by
    rw [read, ofTokens, hplace]
  have hkept : kept = if more.failsAtOnce then
      (readFrom options.depth (.finished place) 0
        (Token.scan options.filename front).list).forms.dropLast
      else (readFrom options.depth (.finished place) 0
        (Token.scan options.filename front).list).forms := by
    rw [← hfront]
  rw [hfront] at h
  rw [hkept, read, hscan]
  cases hfails : more.failsAtOnce with
  | false =>
    rw [if_neg (by decide)]
    exact readFrom_append hfew hfails h
  | true =>
    obtain ⟨f, hf⟩ := Tokens.eq_of_failsAtOnce hfails
    rw [if_pos rfl, hf, Tokens.behind, ofTokens, ofTokens, List.append_nil]
    rw [readFrom_before_fault hfew h, readFrom, List.append_nil]

/-- A stray parenthesis on the next line takes no form away. -/
theorem read_before_stray :
    (read {} (lit "(f #\\() ; call")).forms.length = 1 ∧
      (read {} (lit "(f #\\() ; call\n) g")).forms = (read {} (lit "(f #\\() ; call")).forms ∧
      (read {} (lit "(f #\\() ; call\n) g")).faults.length = 1 := by
  have hfaults : (read {} (lit "(f #\\() ; call")).faults = [] := by decide +kernel
  let more := Token.scanFrom (glyphs (lit ") g"))
    (({} : Position).past (lit "(f #\\() ; call" ++ [10]))
  have hscanned : more.failsAtOnce = false := by decide +kernel
  have hnone : (ofTokens 500 more).forms = [] := List.length_eq_zero_iff.1 (by decide +kernel)
  have hread := congrArg Program.forms (read_append_line hfaults (lit ") g"))
  refine ⟨by decide +kernel, ?_, by decide +kernel⟩
  refine hread.trans ?_
  change (if more.failsAtOnce = true then _ else _) ++ (ofTokens 500 more).forms = _
  rw [hscanned, hnone, if_neg Bool.false_ne_true, List.append_nil]

/-- A string without end on the next line takes the last form away. -/
theorem read_before_openString :
    (read {} (lit "a")).faults = [] ∧
      ¬ (read {} (lit "a")).forms <+: (read {} (lit "a\n\"")).forms := by
  have hone : (read {} (lit "a")).forms.length = 1 := by decide +kernel
  have hnone : (read {} (lit "a\n\"")).forms.length = 0 := by decide +kernel
  refine ⟨by decide +kernel, fun h => ?_⟩
  have hle := h.length_le
  omega

end Program
end StackLisp
