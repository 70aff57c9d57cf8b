import StackLisp.Proofs.Attempts

/-! What a report underlines. A fault that is read from a text lies between two of its characters,
and the report shows its line with carets below it: they start under the first character of the
fault and reach one column beyond its last. -/
namespace StackLisp

/-! ### Lines -/

namespace Text

theorem lineAt_lineEnd (n : Nat) (text : Bytes) : lineAt (n + 1) (10 :: text) = lineAt n text := rfl

theorem lineAt_cons {b : UInt8} (h : b ≠ 10) (n : Nat) (text : Bytes) :
    lineAt (n + 1) (b :: text) = lineAt (n + 1) text := by
  have hb : ¬ b = newline := h
  unfold lineAt
  rw [cut?, if_neg hb]
  cases cut? newline text with
  | none => rfl
  | some parts => rfl

/-- As many lines are passed as lines end. -/
theorem lineAt_behind (front text : Bytes) :
    lineAt (front.count 10 + 1) (front ++ 10 :: text) = lineAt 0 text := by
  induction front with
  | nil => rfl
  | cons b front ih =>
    by_cases hb : b = 10
    · rw [hb, List.count_cons_self, List.cons_append, lineAt_lineEnd, ih]
    · rw [List.count_cons_of_ne hb, List.cons_append, lineAt_cons hb, ih]

/-- The line of a place reaches from the line end before it to the one behind it. -/
theorem lineAt_count (front back : Bytes) : lineAt (front.count 10) (front ++ back) =
    front.rtakeWhile (· ≠ 10) ++ back.takeWhile (· ≠ 10) := by
  induction front using List.reverseRecOn generalizing back with
  | nil => rfl
  | append_singleton front b ih =>
    rw [List.append_assoc, List.singleton_append, List.count_append]
    by_cases hb : b = 10
    · rw [hb, List.count_singleton_self, lineAt_behind,
        List.rtakeWhile_concat_neg _ _ _ (by decide)]
      rfl
    · rw [List.count_cons_of_ne hb, List.count_nil, Nat.add_zero, ih,
        List.takeWhile_cons_of_pos (by simpa using hb),
        List.rtakeWhile_concat_pos _ _ _ (by simpa using hb), List.append_assoc,
        List.singleton_append]

/-- The characters before the first line end have the bytes before the first line end. -/
theorem takeWhile_flatMap_bytes {gs : List Glyph} (h : ∀ g ∈ gs, g.Decoded) :
    (gs.flatMap Glyph.bytes).takeWhile (· ≠ 10) =
      (gs.takeWhile fun g => g.char ≠ '\n').flatMap Glyph.bytes := by
  induction gs with
  | nil => rfl
  | cons g gs ih =>
    obtain ⟨hg, hgs⟩ := List.forall_mem_cons.1 h
    rw [List.flatMap_cons]
    by_cases hline : g.char = '\n'
    · rw [hg.bytes_of_lineEnd hline, List.takeWhile_cons_of_neg (by simpa using hline)]
      rfl
    · have hall : ∀ b ∈ g.bytes, decide (b ≠ 10) = true := by
        intro b hb
        refine decide_eq_true fun heq => hg.not_mem_of_not_lineEnd hline ?_
        rwa [← heq]
      rw [List.takeWhile_append_of_pos hall, List.takeWhile_cons_of_pos (by simpa using hline),
        List.flatMap_cons, ih hgs]

end Text

open Text (Glyph glyphs between lineAt lit decimalInt spaces)

/-! ### Two places on a line -/

namespace Position

variable {file text : Bytes} {front left part front' left' : List Glyph} {p q : Position}

theorem Exact.reached (h : p.Exact file text) :
    p.Reached file text (glyphs (text.take p.offset)) (glyphs (text.drop p.offset)) := by
  have hdecoded : ∀ g ∈ glyphs (text.take p.offset), g.Decoded := fun g => Text.decoded_of_mem
  have hbytes := Text.flatMap_bytes_glyphs (text.take p.offset)
  refine ⟨h.boundary, ?_, ?_, ?_, h.file⟩
  · rw [hbytes, List.length_take, Nat.min_eq_left h.bound]
  · rw [← Text.count_flatMap_bytes hdecoded, hbytes, h.line]
  · obtain ⟨before, hbefore⟩ :=
      List.rtakeWhile_suffix (fun g : Glyph => g.char ≠ '\n') (glyphs (text.take p.offset))
    have hline : glyphs (text.take p.offset) =
        before ++ (glyphs (text.take p.offset)).rtakeWhile (fun g => g.char ≠ '\n') ++ [] := by
      rw [hbefore, List.append_nil]
    rw [h.column, ← Text.glyphs_flatMap_bytes hline, ← Text.rtakeWhile_flatMap_bytes hdecoded,
      hbytes]

namespace Reached

/-- Between a place and a later one stand the characters that are passed from one to the other. -/
theorem exists_part (hp : p.Reached file text front left) (hq : q.Reached file text front' left')
    (hle : p.offset ≤ q.offset) : ∃ part, front' = front ++ part ∧ left = part ++ left' := by
  rcases List.append_eq_append_iff.1 (hp.characters.symm.trans hq.characters) with
    ⟨part, hfront, hleft⟩ | ⟨part, rfl, rfl⟩
  · exact ⟨part, hfront, hleft⟩
  · -- there are no bytes, and so no characters, from the later place back to the earlier one
    have hsame : (part.flatMap Glyph.bytes).length = 0 := by
      rw [hp.offset, hq.offset, List.flatMap_append, List.length_append] at hle
      omega
    cases part with
    | nil => exact ⟨[], by rw [List.append_nil, List.append_nil], rfl⟩
    | cons g part =>
      have hg : g.Decoded := hp.decoded g (by simp)
      have hpositive := List.length_pos_iff.2 hg.bytes_ne_nil
      rw [List.flatMap_cons, List.length_append] at hsame
      omega

/-- No line ends between two places on one line. -/
theorem not_lineEnd (hp : p.Reached file text front left)
    (hq : q.Reached file text (front ++ part) left') (hline : q.line = p.line) :
    ∀ g ∈ part, decide (g.char ≠ '\n') = true := by
  rw [hp.line, hq.line, List.countP_append] at hline
  have hnone : part.countP (fun g => g.char = '\n') = 0 := by omega
  intro g hg
  have hne := List.countP_eq_zero.1 hnone g hg
  simpa using hne

theorem column_add (hp : p.Reached file text front left)
    (hq : q.Reached file text (front ++ part) left')
    (hpart : ∀ g ∈ part, decide (g.char ≠ '\n') = true) : q.column = p.column + part.length := by
  have hreverse : ∀ g ∈ part.reverse, decide (g.char ≠ '\n') = true :=
    fun g hg => hpart g (List.mem_reverse.1 hg)
  have hline : (front ++ part).rtakeWhile (fun g => g.char ≠ '\n') =
      front.rtakeWhile (fun g => g.char ≠ '\n') ++ part := by
    rw [List.rtakeWhile, List.reverse_append, List.takeWhile_append_of_pos hreverse,
      List.reverse_append, List.reverse_reverse]
    rfl
  rw [hq.column, hp.column, hline, List.length_append, Int.natCast_add]

theorem lineAt_line (hp : p.Reached file text front left) : lineAt p.line.toNat text =
    (front.rtakeWhile (fun g => g.char ≠ '\n') ++ left.takeWhile fun g => g.char ≠ '\n').flatMap
      Glyph.bytes := by
  obtain ⟨hfront, hleft⟩ := List.forall_mem_append.1 hp.decoded
  have hline : p.line.toNat = (front.flatMap Glyph.bytes).count 10 := by
    rw [hp.line, Text.count_flatMap_bytes hfront, Int.toNat_natCast]
  rw [hline, hp.text_eq, Text.lineAt_count, Text.rtakeWhile_flatMap_bytes hfront,
    Text.takeWhile_flatMap_bytes hleft, List.flatMap_append]

/-- Two places on one line divide it into three texts, character by character. -/
theorem line_split (hp : p.Reached file text front (part ++ left))
    (hq : q.Reached file text (front ++ part) left) (hline : q.line = p.line) :
    ∃ before after, lineAt p.line.toNat text = before ++ part.flatMap Glyph.bytes ++ after ∧
      glyphs (lineAt p.line.toNat text) = glyphs before ++ part ++ glyphs after ∧
      p.column = (glyphs before).length := by
  let before := front.rtakeWhile fun g => g.char ≠ '\n'
  let after := left.takeWhile fun g => g.char ≠ '\n'
  obtain ⟨above, habove⟩ : before <:+ front := List.rtakeWhile_suffix _ front
  obtain ⟨below, hbelow⟩ : after <+: left := List.takeWhile_prefix _
  have htext : glyphs text = above ++ before ++ part ++ after ++ below := by
    rw [hp.characters, ← habove, ← hbelow]
    simp only [List.append_assoc]
  have hbytes : lineAt p.line.toNat text = (before ++ part ++ after).flatMap Glyph.bytes := by
    rw [hp.lineAt_line, List.takeWhile_append_of_pos (hp.not_lineEnd hq hline), List.append_assoc]
  -- the line and its parts are cut out of the characters of the text
  have hfirst : glyphs text = above ++ before ++ (part ++ after ++ below) := by
    rw [htext]
    simp only [List.append_assoc]
  have hwhole : glyphs text = above ++ (before ++ part ++ after) ++ below := by
    rw [htext]
    simp only [List.append_assoc]
  refine ⟨before.flatMap Glyph.bytes, after.flatMap Glyph.bytes, ?_, ?_, ?_⟩
  · rw [hbytes, List.flatMap_append, List.flatMap_append]
  · rw [hbytes, Text.glyphs_flatMap_bytes hwhole, Text.glyphs_flatMap_bytes hfirst,
      Text.glyphs_flatMap_bytes htext]
  · rw [Text.glyphs_flatMap_bytes hfirst]
    exact hp.column

end Reached

theorem Exact.line_split (hp : p.Exact file text) (hq : q.Exact file text)
    (hle : p.offset ≤ q.offset) (hline : q.line = p.line) :
    ∃ before after, lineAt p.line.toNat text =
        before ++ between text p.offset q.offset ++ after ∧
      glyphs (lineAt p.line.toNat text) =
        glyphs before ++ glyphs (between text p.offset q.offset) ++ glyphs after ∧
      p.column = (glyphs before).length ∧
      q.column = p.column + (glyphs (between text p.offset q.offset)).length := by
  have hp := hp.reached
  have hq := hq.reached
  obtain ⟨part, hfront, hleft⟩ := hp.exists_part hq hle
  rw [hfront] at hq
  rw [hleft] at hp
  obtain ⟨before, after, hbytes, hcharacters, hcolumn⟩ := hp.line_split hq hline
  have hpart : glyphs (part.flatMap Glyph.bytes) = part :=
    Text.glyphs_flatMap_bytes (hq.characters)
  rw [hp.between_eq hq, hpart]
  exact ⟨before, after, hbytes, hcharacters, hcolumn,
    hp.column_add hq (hp.not_lineEnd hq hline)⟩

end Position

/-! ### Faults -/

/-- The fault is between two places of the text. -/
structure LocatedFault.Placed (file text : Bytes) (f : LocatedFault) : Prop where
  start : f.start.Exact file text
  stop : f.stop.Exact file text
  ordered : f.start.offset ≤ f.stop.offset

/-- What a fault was found in: the characters that cannot be scanned, a token, or a datum. One of a
datum that spans lines is reported at its first token. -/
inductive LocatedFault.About (ts : Tokens) : LocatedFault → Prop where
  | scanned {g : ScanFault} : ts.ending = .failed g → About ts g.located
  | token {t : Token} (fault : Fault) : t ∈ ts.list → About ts ⟨fault, t.start, t.stop⟩
  | datum {d : Datum} {own : List Token} (fault : Fault) : Datum.Grammar [d] own →
      own <:+: ts.list → About ts (d.fail fault)

namespace LocatedFault.About

variable {ts rest : List Token} {ending : Ending} {f : LocatedFault} {file text : Bytes} {n : Nat}

theorem mono (h : About ⟨rest, ending⟩ f) (hrest : rest <:+ ts) : About ⟨ts, ending⟩ f := by
  cases h with
  | scanned hending => exact .scanned hending
  | token fault ht => exact .token fault (hrest.subset ht)
  | datum fault hd hown => exact .datum fault hd (hown.trans hrest.isInfix)

theorem of_read {limit : Int} (hne : ts = [] → ∃ g, ending = .failed g)
    (h : Datum.read limit ending ts = .error f) : About ⟨ts, ending⟩ f := by
  rcases Datum.blamesToken_of_read hne h with ⟨t, ht, hf⟩ | ⟨g, hg, hf⟩
  · rw [hf]
    exact .token f.fault ht
  · rw [hf]
    exact .scanned hg

theorem of_ofDatum {d : Datum} {own : List Token} (hd : Datum.Grammar [d] own)
    (h : Expr.ofDatum d = .error f) (rest : List Token) : About ⟨own ++ rest, ending⟩ f := by
  obtain ⟨x, hx, hf⟩ := Expr.blamed_of_ofDatum h
  obtain ⟨part, hpart, hamong⟩ := hd.inside hx
  rw [hf]
  exact .datum f.fault hpart (hamong.trans (List.prefix_append own rest).isInfix)

theorem placed (h : About ⟨ts, ending⟩ f) (ht : Tiles file text n ts ending) :
    f.Placed file text := by
  cases h with
  | scanned hending =>
    obtain rfl : ending = _ := hending
    have hg := ht.fault.1
    exact ⟨hg.start, hg.stop, hg.ordered⟩
  | @token t fault hmem =>
    have hplaced := (ht.placed t hmem).1
    exact ⟨hplaced.start, hplaced.stop, Nat.le_of_lt hplaced.nonempty⟩
  | @datum d own fault hd hamong =>
    obtain ⟨last, hlast, -, hstop⟩ := hd.exists_stop
    have hfirst := hd.token_mem
    have hplaced := (ht.placed d.token (hamong.subset hfirst)).1
    have hend := (ht.placed last (hamong.subset hlast)).1.stop
    have hends := hd.encloses (ht.ordered.sublist hamong.sublist) d.token hfirst
    have hsize := hplaced.nonempty
    rw [hstop] at hend
    refine ⟨hplaced.start, ?_, ?_⟩
    · unfold Datum.fail
      dsimp only
      split
      · exact hend
      · exact hplaced.stop
    · show d.token.start.offset ≤ _
      unfold Datum.fail
      dsimp only
      split <;> omega

end LocatedFault.About

/-- The faults of a run are about the tokens it was given. -/
theorem Program.Run.about {limit : Int} {ending : Ending} {found : Nat} {ts left : List Token}
    {as : List Attempt} (h : Run limit ending found ts as left) :
    ∀ f ∈ as.filterMap Attempt.fault?, f.About ⟨ts, ending⟩ := by
  induction h with
  | finished | enough => exact List.forall_mem_nil _
  | unreadable hne _ hread => exact List.forall_mem_singleton.2 (.of_read hne hread)
  | form _ hread _ _ ih =>
    obtain ⟨own, rfl, -⟩ := Datum.grammar_of_read hread
    exact fun f hf => (ih f hf).mono (List.suffix_append _ _)
  | malformed _ hread hd _ ih =>
    obtain ⟨own, rfl, hown⟩ := Datum.grammar_of_read hread
    intro f hf
    rcases List.mem_cons.1 hf with rfl | hf
    · exact .of_ofDatum hown hd _
    · exact (ih f hf).mono (List.suffix_append _ _)

/-! ### Reports -/

namespace Diagnostic

variable {d : Diagnostic}

/-- The report ends with the source line and, in the line below it, with carets: as many as given,
under the part `offending` of the line, which stands at the column of the diagnostic. -/
structure Underlines (d : Diagnostic) (before offending after : Bytes) (carets : Nat) : Prop where
  line : d.sourceLine = before ++ offending ++ after
  characters : glyphs d.sourceLine = glyphs before ++ glyphs offending ++ glyphs after
  column : d.column = (glyphs before).length + 1
  margin : (Report.alignRight d.report.margin (decimalInt d.line)).length = d.report.margin
  shown : ∃ head, d.friendly = head ++ lit "\n"
    ++ (Report.alignRight d.report.margin (decimalInt d.line) ++ lit " | " ++ d.sourceLine
      ++ lit "\n")
    ++ (spaces d.report.margin ++ lit " | " ++ spaces (glyphs before).length
      ++ Text.repeated carets 94 ++ lit "\n")

/-- The number of the line has the width of the margin. -/
theorem length_alignRight (d : Diagnostic) :
    (Report.alignRight d.report.margin (decimalInt d.line)).length = d.report.margin := by
  have hle : (decimalInt d.line).length ≤ d.report.margin := Nat.le_max_right _ _
  rw [Report.alignRight, List.length_append, spaces, Text.repeated, List.length_replicate]
  omega

/-- The report of a fault without suggestions and notes ends with its line and the carets. -/
theorem friendly_eq (hline : d.sourceLine ≠ []) (hcolumn : 1 ≤ d.column)
    (hsuggestions : d.suggestions = []) (hnote : d.note = []) : ∃ head, d.friendly =
      head ++ lit "\n" ++ (Report.alignRight d.report.margin (decimalInt d.line) ++ lit " | "
        ++ d.sourceLine ++ lit "\n") ++ (spaces d.report.margin ++ lit " | "
        ++ spaces (d.column - 1).toNat ++ Text.repeated d.report.caretCount 94 ++ lit "\n") := by
  have hlines : d.report.lines = [⟨d.line, d.sourceLine, true⟩] := if_neg hline
  have hhint : d.report.hint = [] := congrArg Suggestion.question hsuggestions
  have hremark : d.report.note = [] := hnote
  have hshow : d.report.showLine false ⟨d.line, d.sourceLine, true⟩ =
      (Report.alignRight d.report.margin (decimalInt d.line) ++ lit " | " ++ d.sourceLine
        ++ lit "\n") ++ (spaces d.report.margin ++ lit " | " ++ spaces (d.column - 1).toNat
        ++ Text.repeated d.report.caretCount 94 ++ lit "\n") :=
    congrArg (_ ++ ·) (if_pos ⟨rfl, hcolumn⟩)
  apply Exists.intro
  rw [friendly, Report.render, hlines, Report.remark, Report.remark, if_pos hhint, if_pos hremark,
    if_neg (List.cons_ne_nil _ _), List.flatMap_singleton, hshow]
  simp only [List.append_nil, ← List.append_assoc]
  rfl

end Diagnostic

namespace LocatedFault

/-- The report of a fault that ends on the line where it starts has one caret more than the fault
has characters. -/
theorem Placed.underlines {file source : Bytes} {f : LocatedFault} (h : f.Placed file source)
    (hend : (f.diagnostic source file).endColumn ≠ 0) :
    ∃ before after, (f.diagnostic source file).Underlines before
      (between source f.start.offset f.stop.offset) after
      ((glyphs (between source f.start.offset f.stop.offset)).length + 1) := by
  have hset : f.stop.line = f.start.line ∧ f.stop.column > f.start.column := by
    by_contra hnot
    exact hend (if_neg hnot)
  have hendColumn : (f.diagnostic source file).endColumn = f.stop.column + 1 := if_pos hset
  obtain ⟨before, after, hline, hcharacters, hstart, hstop⟩ :=
    h.start.line_split h.stop h.ordered hset.1
  generalize hoffending : between source f.start.offset f.stop.offset = offending at *
  have hcolumn : (f.diagnostic source file).column = (glyphs before).length + 1 :=
    congrArg (· + 1) hstart
  have hcarets : (f.diagnostic source file).report.caretCount = (glyphs offending).length + 1 := by
    show (if (f.diagnostic source file).endColumn > (f.diagnostic source file).column then
      ((f.diagnostic source file).endColumn - (f.diagnostic source file).column + 1).toNat
      else 1) = _
    rw [hendColumn, hcolumn, if_pos (by omega)]
    omega
  have hne : (f.diagnostic source file).sourceLine ≠ [] := by
    intro hnil
    have hempty : offending = [] := by
      have happend := hline.symm.trans hnil
      exact (List.append_eq_nil_iff.1 (List.append_eq_nil_iff.1 happend).1).2
    have hzero : (glyphs offending).length = 0 := by rw [hempty]; rfl
    omega
  obtain ⟨head, hshown⟩ := Diagnostic.friendly_eq hne (by omega) rfl rfl
  have hspaces : ((f.diagnostic source file).column - 1).toNat = (glyphs before).length := by omega
  rw [hcarets, hspaces] at hshown
  exact ⟨before, after, hline, hcharacters, hcolumn, Diagnostic.length_alignRight _, head, hshown⟩

end LocatedFault

/-- Every report of a fault that is read from a text and whose end column is set shows the line of
the fault, with carets that start below its first character. There is one caret more than there are
characters in what is reported. -/
theorem Program.read_underlines {options : ReadOptions} {source : Bytes} {f : LocatedFault}
    (hf : f ∈ (read options source).faults)
    (hend : (f.diagnostic source options.filename).endColumn ≠ 0) :
    f.About (Token.scan options.filename source) ∧ f.Placed options.filename source ∧
      ∃ before after, (f.diagnostic source options.filename).Underlines before
        (between source f.start.offset f.stop.offset) after
        ((glyphs (between source f.start.offset f.stop.offset)).length + 1) := by
  obtain ⟨as, left, hrun, htiles, -, hfaults⟩ := exists_run_read options source
  rw [hfaults] at hf
  have habout := hrun.about f hf
  have hplaced := habout.placed htiles
  exact ⟨habout, hplaced, hplaced.underlines hend⟩

/-- The last binding has no value. It stands behind other bindings, some of whose characters have
several bytes. -/
def Program.bindings : Bytes := lit "é\n(let ((x 1)\n (λ \"ж\") (é)) x)"

def Program.bindingFault : LocatedFault := ⟨.malformedBinding, ⟨26, 2, 9, []⟩, ⟨30, 2, 12, []⟩⟩

theorem Program.bindings_underlines : bindingFault ∈ (read {} bindings).faults ∧
    (bindingFault.diagnostic bindings []).endColumn ≠ 0 ∧
    bindingFault.About (Token.scan [] bindings) ∧ bindingFault.Placed [] bindings ∧
    ∃ before after,
      (bindingFault.diagnostic bindings []).Underlines before (lit "(é)") after 4 := by
  have hf : bindingFault ∈ (read {} bindings).faults := by decide +kernel
  have hend : (bindingFault.diagnostic bindings []).endColumn ≠ 0 := by decide +kernel
  have hlength : (glyphs (lit "(é)")).length = 3 := by decide +kernel
  have hbetween : between bindings bindingFault.start.offset bindingFault.stop.offset =
      lit "(é)" := by decide +kernel
  have h := read_underlines hf hend
  rw [hbetween, hlength] at h
  exact ⟨hf, hend, h⟩

/-- So what is underlined is longer than the fault: the report of a single closing parenthesis has
two carets. -/
theorem Program.close_underlined_twice :
    let source := lit ")"
    let f : LocatedFault := ⟨.unexpectedClose, ⟨0, 0, 0, []⟩, ⟨1, 0, 1, []⟩⟩
    (read {} source).faults = [f] ∧ (f.diagnostic source []).endColumn ≠ 0 ∧
      (glyphs (between source f.start.offset f.stop.offset)).length = 1 ∧
      (f.diagnostic source []).friendly =
        lit "parse error[E1001]: unexpected )\n  --> 1:1\n   |\n 1 | )\n   | ^^\n" := by
  decide +kernel

end StackLisp
