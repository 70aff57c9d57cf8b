import StackLisp.Expr.Printer
import StackLisp.Proofs.Decoding
import StackLisp.Proofs.Grammar

/-! Texts that the scanner takes for one datum wherever they stand: names, strings and characters
as they are written, and lists of such texts. -/
namespace StackLisp

/-- Tokens with more of them in front. -/
def Tokens.behind (front : List Token) (ts : Tokens) : Tokens := ⟨front ++ ts.list, ts.ending⟩

theorem Tokens.behind_behind (front more : List Token) (ts : Tokens) :
    (ts.behind more).behind front = ts.behind (front ++ more) := by
  simp [Tokens.behind]

namespace Token

open Text (Glyph glyphs encode encodeChar lit)

/-! ### Steps of the scanner -/

section
variable {gs rest left : List Glyph} {g : Glyph} {p q r : Position} {t : Token}

theorem scanFrom_of_nil (hb : skipBlank false gs p = ([], q)) : scanFrom gs p = ⟨[], .finished q⟩ := by
  rw [scanFrom]
  split
  · next heq =>
    cases heq.symm.trans hb
    rfl
  · next heq => cases heq.symm.trans hb

theorem scanFrom_of_error {f : LocatedFault} (hb : skipBlank false gs p = (g :: rest, q))
    (ht : scanToken g rest q = .error f) : scanFrom gs p = ⟨[], .failed ⟨f, q⟩⟩ := by
  rw [scanFrom]
  split
  · next heq => cases heq.symm.trans hb
  · next heq =>
    cases heq.symm.trans hb
    split
    · next heq =>
      cases heq.symm.trans ht
      rfl
    · next heq => cases heq.symm.trans ht

theorem scanFrom_of_token (hb : skipBlank false gs p = (g :: rest, q))
    (ht : scanToken g rest q = .ok (t, left, r)) :
    scanFrom gs p = (scanFrom left r).behind [t] := by
  rw [scanFrom]
  split
  · next heq => cases heq.symm.trans hb
  · next heq =>
    cases heq.symm.trans hb
    split
    · next heq => cases heq.symm.trans ht
    · next heq =>
      cases heq.symm.trans ht
      rfl

theorem scanFrom_congr {gs' : List Glyph} {p' : Position}
    (h : skipBlank false gs p = skipBlank false gs' p') : scanFrom gs p = scanFrom gs' p' := by
  obtain ⟨⟨ahead, q⟩, hb⟩ : ∃ r, skipBlank false gs p = r := ⟨_, rfl⟩
  have hb' : skipBlank false gs' p' = (ahead, q) := by rw [← h, hb]
  cases ahead with
  | nil => rw [scanFrom_of_nil hb, scanFrom_of_nil hb']
  | cons g rest =>
    cases ht : scanToken g rest q with
    | error f => rw [scanFrom_of_error hb ht, scanFrom_of_error hb' ht]
    | ok r => rw [scanFrom_of_token hb ht, scanFrom_of_token hb' ht]

theorem skipBlank_of_not_isDelimiter (h : isDelimiter g.char = false) :
    skipBlank false (g :: gs) p = (g :: gs, p) := by
  simp only [isDelimiter, Bool.or_eq_false_iff, beq_eq_false_iff_ne] at h
  rw [skipBlank, if_neg h.1.2, if_neg (by rw [h.1.1.1.1.1]; decide)]

end

theorem scanFrom_space (rest : Bytes) (p : Position) :
    scanFrom (glyphs (32 :: rest)) p = scanFrom (glyphs rest) (p.after ⟨' ', [32]⟩) := by
  rw [Text.glyphs_ascii (by decide)]
  exact scanFrom_congr rfl

theorem scanFrom_opening (rest : Bytes) (p : Position) :
    ∃ t q, t.kind = .opening ∧
      scanFrom (glyphs (40 :: rest)) p = (scanFrom (glyphs rest) q).behind [t] := by
  rw [Text.glyphs_ascii (by decide)]
  exact ⟨_, _, rfl, scanFrom_of_token rfl rfl⟩

theorem scanFrom_closing (rest : Bytes) (p : Position) :
    ∃ t q, t.kind = .closing ∧
      scanFrom (glyphs (41 :: rest)) p = (scanFrom (glyphs rest) q).behind [t] := by
  rw [Text.glyphs_ascii (by decide)]
  exact ⟨_, _, rfl, scanFrom_of_token rfl rfl⟩

/-! ### Texts of one datum -/

/-- The text is over, or a space or a closing parenthesis follows. -/
def Bounded (rest : Bytes) : Prop := ∀ b ∈ rest.head?, b = 32 ∨ b = 41

theorem bounded_nil : Bounded [] := nofun

theorem bounded_space (rest : Bytes) : Bounded (32 :: rest) := by
  rintro b ⟨⟩
  exact .inl rfl

theorem bounded_closing (rest : Bytes) : Bounded (41 :: rest) := by
  rintro b ⟨⟩
  exact .inr rfl

theorem Bounded.startsFresh {rest : Bytes} (h : Bounded rest) : Text.StartsFresh rest := by
  intro b hb
  rcases h b hb with rfl | rfl <;> decide

/-- Behind a text that is bounded an atom ends. -/
theorem Bounded.head_isDelimiter {rest : Bytes} (h : Bounded rest) :
    ∀ g ∈ (glyphs rest).head?, isDelimiter g.char = true := by
  cases rest with
  | nil => nofun
  | cons b rest =>
    rw [Text.glyphs_ascii (h.startsFresh b rfl)]
    rintro g ⟨⟩
    rcases h b rfl with rfl | rfl <;> decide

/-- The text is scanned as the tokens of a datum with the property `M`, whatever follows it. -/
def Writes (text : Bytes) (M : Datum → Prop) : Prop :=
  ∀ rest p, Bounded rest → ∃ d ts q, M d ∧ Datum.Grammar [d] ts ∧
    scanFrom (glyphs (text ++ rest)) p = (scanFrom (glyphs rest) q).behind ts

theorem Writes.mono {text : Bytes} {M N : Datum → Prop} (h : Writes text M)
    (hMN : ∀ d, M d → N d) : Writes text N := by
  intro rest p hrest
  obtain ⟨d, ts, q, hd, hts, hscan⟩ := h rest p hrest
  exact ⟨d, ts, q, hMN d hd, hts, hscan⟩

theorem Writes.ne_nil {text : Bytes} {M : Datum → Prop} (h : Writes text M) : text ≠ [] := by
  rintro rfl
  obtain ⟨d, ts, q, -, hts, hscan⟩ := h [] {} bounded_nil
  have hnone (p : Position) : (scanFrom (glyphs []) p).list = [] := by
    rw [scanFrom_of_nil (rfl : skipBlank false (glyphs []) p = ([], p))]
  have hlist : [] = ts ++ (scanFrom (glyphs []) q).list := by
    rw [← hnone {}]
    exact congrArg Tokens.list hscan
  obtain ⟨rfl, -⟩ := List.append_eq_nil_iff.1 hlist.symm
  cases hts

/-- The datum is a token of this kind and text. -/
def IsToken (kind : TokenKind) (text : Bytes) (d : Datum) : Prop :=
  ∃ t, d = .atom t ∧ t.kind = kind ∧ t.literal = text

theorem writes_token {text literal : Bytes} {kind : TokenKind}
    (hkind : kind ≠ .opening ∧ kind ≠ .quote ∧ kind ≠ .closing)
    (h : ∀ rest p, Bounded rest → ∃ t q, t.kind = kind ∧ t.literal = literal ∧
      scanFrom (glyphs (text ++ rest)) p = (scanFrom (glyphs rest) q).behind [t]) :
    Writes text (IsToken kind literal) := by
  intro rest p hrest
  obtain ⟨t, q, rfl, rfl, hscan⟩ := h rest p hrest
  exact ⟨.atom t, [t], q, ⟨t, rfl, rfl, rfl⟩, .atom hkind .nil, hscan⟩

/-! ### Names and numbers -/

/-- A text without delimiters that starts no character. -/
def Plain (text : Bytes) : Prop :=
  (∀ g ∈ glyphs text, isDelimiter g.char = false) ∧ ∃ g ∈ (glyphs text).head?, g.char ≠ '#'

theorem spanAtom_append {gs rest : List Glyph} (h : ∀ g ∈ gs, isDelimiter g.char = false)
    (hrest : ∀ g ∈ rest.head?, isDelimiter g.char = true) (p : Position) :
    ∃ q, spanAtom (gs ++ rest) p = (gs.flatMap Glyph.bytes, rest, q) := by
  induction gs generalizing p with
  | nil =>
    cases rest with
    | nil => exact ⟨p, rfl⟩
    | cons g rest =>
      refine ⟨p, ?_⟩
      rw [List.nil_append, spanAtom, if_pos (hrest g rfl)]
      rfl
  | cons g gs ih =>
    obtain ⟨hg, hgs⟩ := List.forall_mem_cons.1 h
    obtain ⟨q, hq⟩ := ih hgs (p.after g)
    refine ⟨q, ?_⟩
    rw [List.cons_append, spanAtom, hg, hq, List.flatMap_cons]
    rfl

theorem classify_cases (text : Bytes) :
    classify text = .ident ∨ classify text = .int ∨ classify text = .float := by
  unfold classify
  dsimp only
  split
  · exact .inl rfl
  · split_ifs <;> simp

theorem writes_plain {text : Bytes} (h : Plain text) : Writes text (IsToken (classify text) text) := by
  obtain ⟨hall, g, hfirst, hhash⟩ := h
  have hkind : classify text ≠ .opening ∧ classify text ≠ .quote ∧ classify text ≠ .closing := by
    rcases classify_cases text with hkind | hkind | hkind <;> rw [hkind] <;> decide
  refine writes_token hkind fun rest p hrest => ?_
  have hbytes := Text.flatMap_bytes_glyphs text
  rw [Text.glyphs_append hrest.startsFresh]
  cases hgs : glyphs text with
  | nil =>
    rw [hgs] at hfirst
    cases hfirst
  | cons _ gs =>
    rw [hgs] at hall hfirst hbytes
    cases hfirst
    obtain ⟨hg, hrest'⟩ := List.forall_mem_cons.1 hall
    obtain ⟨q, hspan⟩ := spanAtom_append hrest' hrest.head_isDelimiter (p.after g)
    rw [List.flatMap_cons] at hbytes
    have htoken : scanToken g (gs ++ glyphs rest) p =
        .ok (⟨classify text, text, p, q⟩, glyphs rest, q) := by
      have hne := hg
      simp only [isDelimiter, Bool.or_eq_false_iff, beq_eq_false_iff_ne] at hne
      simp only [scanToken, hne, hhash, if_false, hspan, hbytes]
    exact ⟨_, q, rfl, rfl, scanFrom_of_token (skipBlank_of_not_isDelimiter hg) htoken⟩

/-! ### Strings -/

/-- The characters of a string that are written as they are or as an escape that can be read. -/
def Quotable (g : Glyph) : Prop :=
  Text.quoteGlyph g = g.bytes ∨
    Text.quoteGlyph g ∈ [lit "\\n", lit "\\t", lit "\\r", lit "\\\\", lit "\\\""]

instance (g : Glyph) : Decidable (Quotable g) := inferInstanceAs (Decidable (_ ∨ _))

theorem eq_ofNat_of_toNat {c : Char} {n : Nat} (h : c.toNat = n) : c = Char.ofNat n := by
  rw [← h, Char.ofNat_toNat]

theorem encodeChar_ne_backslash {c : Char} (h : c ≠ '\\') (rest : Bytes) :
    encodeChar c ≠ 92 :: rest := by
  intro heq
  have hglyphs := Text.glyphs_encodeChar c []
  rw [heq, List.cons_append, Text.glyphs_ascii (by decide)] at hglyphs
  have hfirst := congrArg Glyph.char (List.cons.inj hglyphs).1
  exact h hfirst.symm

theorem isBad_encodeChar (c : Char) : (Glyph.mk c (encodeChar c)).isBad = false := by
  by_cases hc : c = Text.replacement
  · subst hc
    decide
  · simp [Glyph.isBad, hc]

/-- The escapes of a string that can be read, as bytes. -/
theorem readable_escapes : [lit "\\n", lit "\\t", lit "\\r", lit "\\\\", lit "\\\""] =
    [[92, 110], [92, 116], [92, 114], [92, 92], [92, 34]] := by decide

/-- No escape that gives a number can be read. -/
theorem numericEscape_cons (c : Char) :
    ∃ k rest, Text.numericEscape c = 92 :: k :: rest ∧ k ∈ [120, 117, 85] := by
  unfold Text.numericEscape
  dsimp only
  split_ifs
  · exact ⟨120, _, rfl, by decide⟩
  · exact ⟨117, _, rfl, by decide⟩
  · exact ⟨85, _, rfl, by decide⟩

/-- Every escape of one letter that can be read stands for the character that it is written for. -/
theorem escapeValue_of_namedEscape {c : Char} {escape : Bytes}
    (hnamed : Text.namedEscape c = some escape)
    (h : escape ∈ [[92, 110], [92, 116], [92, 114], [92, 92], [92, 34]]) :
    ∃ k, k < 0x80 ∧ escape = [92, k] ∧ escapeValue (Char.ofNat k.toNat) = some c := by
  unfold Text.namedEscape at hnamed
  split at hnamed <;> cases hnamed
  · exact absurd h (by decide)
  · exact absurd h (by decide)
  · exact absurd h (by decide)
  · next hc =>
    obtain rfl := eq_ofNat_of_toNat hc
    exact ⟨110, by decide⟩
  · next hc =>
    obtain rfl := eq_ofNat_of_toNat hc
    exact ⟨114, by decide⟩
  · next hc =>
    obtain rfl := eq_ofNat_of_toNat hc
    exact ⟨116, by decide⟩
  · exact absurd h (by decide)
  · next hc =>
    obtain rfl := eq_ofNat_of_toNat hc
    exact ⟨92, by decide⟩
  · next hc =>
    obtain rfl := eq_ofNat_of_toNat hc
    exact ⟨34, by decide⟩

/-- No character is its own escape. -/
theorem namedEscape_ne_encodeChar {c : Char} {escape : Bytes}
    (hnamed : Text.namedEscape c = some escape) : escape ≠ encodeChar c := by
  unfold Text.namedEscape at hnamed
  split at hnamed <;> cases hnamed
  all_goals
    next hc =>
    obtain rfl := eq_ofNat_of_toNat hc
    decide

/-- How a character is written that can be read again: as itself, or with a backslash. -/
theorem Quotable.cases {c : Char} (h : Quotable ⟨c, encodeChar c⟩) :
    (Text.quoteGlyph ⟨c, encodeChar c⟩ = encodeChar c ∧ c ≠ '"' ∧ c ≠ '\\') ∨
      ∃ k, k < 0x80 ∧ Text.quoteGlyph ⟨c, encodeChar c⟩ = [92, k] ∧
        escapeValue (Char.ofNat k.toNat) = some c := by
  unfold Quotable at h
  rw [Text.quoteGlyph, isBad_encodeChar, if_neg Bool.false_ne_true, readable_escapes] at h
  rw [Text.quoteGlyph, isBad_encodeChar, if_neg Bool.false_ne_true]
  cases hnamed : Text.namedEscape c with
  | none =>
    have hquote : c ≠ '"' := by
      rintro rfl
      cases hnamed
    have hslash : c ≠ '\\' := by
      rintro rfl
      cases hnamed
    simp only [hnamed] at h ⊢
    by_cases hprint : Text.isPrintable c = true
    · rw [if_pos hprint]
      exact .inl ⟨rfl, hquote, hslash⟩
    · obtain ⟨k, rest, hk, hletter⟩ := numericEscape_cons c
      rw [if_neg hprint, hk] at h
      rcases h with h | h
      · exact absurd h.symm (encodeChar_ne_backslash hslash _)
      · simp only [List.mem_cons, List.not_mem_nil, or_false, List.cons.injEq] at h hletter
        rcases hletter with rfl | rfl | rfl <;> simp at h
  | some escape =>
    simp only [hnamed] at h ⊢
    have hreadable := h.resolve_left (namedEscape_ne_encodeChar hnamed)
    exact .inr (escapeValue_of_namedEscape hnamed hreadable)

theorem glyphs_doubleQuote (rest : Bytes) : glyphs (34 :: rest) = ⟨'"', [34]⟩ :: glyphs rest :=
  Text.glyphs_ascii (by decide) rest

theorem glyphs_backslash (rest : Bytes) : glyphs (92 :: rest) = ⟨'\\', [92]⟩ :: glyphs rest :=
  Text.glyphs_ascii (by decide) rest

/-- A quoted text is scanned up to its closing quote. -/
theorem scanString_quote {cs : List Char} (h : ∀ c ∈ cs, Quotable ⟨c, encodeChar c⟩)
    (rest : Bytes) (start p : Position) :
    ∃ q, scanString start
      (glyphs (cs.flatMap (fun c => Text.quoteGlyph ⟨c, encodeChar c⟩) ++ 34 :: rest)) p =
        .ok (encode cs, glyphs rest, q) := by
  induction cs generalizing p with
  | nil =>
    refine ⟨p.after ⟨'"', [34]⟩, ?_⟩
    rw [List.flatMap_nil, List.nil_append, glyphs_doubleQuote, scanString.eq_def]
    exact if_pos rfl
  | cons c cs ih =>
    obtain ⟨hc, hcs⟩ := List.forall_mem_cons.1 h
    rw [List.flatMap_cons, List.append_assoc]
    rcases hc.cases with ⟨hquote, hne, hslash⟩ | ⟨k, hk, hquote, hescape⟩
    · obtain ⟨q, hq⟩ := ih hcs (p.after ⟨c, encodeChar c⟩)
      refine ⟨q, ?_⟩
      rw [hquote, Text.glyphs_encodeChar, scanString.eq_def]
      dsimp only
      rw [if_neg hne, if_neg hslash, hq]
      rfl
    · obtain ⟨q, hq⟩ := ih hcs ((p.after ⟨'\\', [92]⟩).after ⟨Char.ofNat k.toNat, [k]⟩)
      refine ⟨q, ?_⟩
      rw [hquote, List.cons_append, glyphs_backslash, List.singleton_append,
        Text.glyphs_ascii hk, scanString.eq_def]
      dsimp only
      rw [if_neg (by decide), if_pos rfl]
      simp only [hescape, hq]
      rfl

theorem writes_string {cs : List Char} (h : ∀ c ∈ cs, Quotable ⟨c, encodeChar c⟩) :
    Writes (Text.quote (encode cs)) (IsToken .string (encode cs)) := by
  refine writes_token (by decide) fun rest p _ => ?_
  have hquote : Text.quote (encode cs) ++ rest =
      34 :: (cs.flatMap (fun c => Text.quoteGlyph ⟨c, encodeChar c⟩) ++ 34 :: rest) := by
    rw [Text.quote, Text.glyphs_encode, List.flatMap_map, List.append_assoc]
    simp [show lit "\"" = [34] from by decide]
  obtain ⟨q, hq⟩ := scanString_quote h rest p (p.after ⟨'"', [34]⟩)
  have htoken : scanToken ⟨'"', [34]⟩
      (glyphs (cs.flatMap (fun c => Text.quoteGlyph ⟨c, encodeChar c⟩) ++ 34 :: rest)) p =
        .ok (⟨.string, encode cs, p, q⟩, glyphs rest, q) := by
    simp only [scanToken]
    rw [if_neg (by decide), if_neg (by decide), if_neg (by decide), if_pos trivial, hq]
    rfl
  rw [hquote, glyphs_doubleQuote]
  exact ⟨_, q, rfl, rfl, scanFrom_of_token rfl htoken⟩

/-! ### Characters -/

/-- The words that name characters are plain, of more than one letter, and name one character. -/
theorem characterNames_spec : ∀ w ∈ Value.characterNames,
    ∃ c gs, glyphs w.1 = ⟨c, encodeChar c⟩ :: gs ∧ gs.flatMap Glyph.bytes ≠ [] ∧
      (∀ g ∈ gs, isDelimiter g.char = false) ∧
      Value.characterNames.find? (fun v => v.1 = w.1) = some w := by
  intro w hw
  simp only [Value.characterNames, List.mem_cons, List.not_mem_nil, or_false] at hw
  rcases hw with rfl | rfl | rfl | rfl | rfl
  · exact ⟨'s', _, rfl, by decide, by decide, by decide⟩
  · exact ⟨'n', _, rfl, by decide, by decide, by decide⟩
  · exact ⟨'t', _, rfl, by decide, by decide, by decide⟩
  · exact ⟨'r', _, rfl, by decide, by decide, by decide⟩
  · exact ⟨'n', _, rfl, by decide, by decide, by decide⟩

theorem scanFrom_character {gs left : List Glyph} {text : Bytes} {p q : Position}
    (h : scanCharacter p (⟨'\\', [92]⟩ :: gs) (p.after ⟨'#', [35]⟩) = .ok (text, left, q)) :
    scanFrom (⟨'#', [35]⟩ :: ⟨'\\', [92]⟩ :: gs) p =
      (scanFrom left q).behind [⟨.char, text, p, q⟩] := by
  refine scanFrom_of_token rfl ?_
  simp only [scanToken]
  rw [if_neg (by decide), if_neg (by decide), if_neg (by decide), if_neg (by decide),
    if_pos trivial, h]
  rfl

theorem writes_named {w : Bytes × Char} (hw : w ∈ Value.characterNames) :
    Writes (lit "#\\" ++ w.1) (IsToken .char (encodeChar w.2)) := by
  refine writes_token (by decide) fun rest p hrest => ?_
  obtain ⟨c, gs, hglyphs, hne, hplain, hfind⟩ := characterNames_spec w hw
  have hbytes := Text.flatMap_bytes_glyphs w.1
  rw [hglyphs, List.flatMap_cons] at hbytes
  have hall : glyphs (lit "#\\" ++ w.1 ++ rest) =
      ⟨'#', [35]⟩ :: ⟨'\\', [92]⟩ :: ⟨c, encodeChar c⟩ :: (gs ++ glyphs rest) := by
    rw [Text.glyphs_append hrest.startsFresh, show lit "#\\" ++ w.1 = 35 :: 92 :: w.1 from rfl,
      Text.glyphs_ascii (by decide), glyphs_backslash, hglyphs]
    rfl
  obtain ⟨q, hspan⟩ := spanAtom_append hplain hrest.head_isDelimiter
    (((p.after ⟨'#', [35]⟩).after ⟨'\\', [92]⟩).after ⟨c, encodeChar c⟩)
  refine ⟨⟨.char, encodeChar w.2, p, q⟩, q, rfl, rfl, ?_⟩
  rw [hall]
  refine scanFrom_character ?_
  rw [scanCharacter, if_neg (by decide)]
  simp only [hspan, if_neg hne, hbytes, hfind]

theorem toInt_ofNat_toNat (c : Char) : (Int32.ofNat c.toNat).toInt = c.toNat := by
  have hvalid := c.valid
  simp only [UInt32.isValidChar, Nat.isValidChar] at hvalid
  have hbound : c.toNat < 0x110000 := by
    rw [Char.toNat]
    omega
  exact Int32.toInt_ofNat_of_lt (by omega)

theorem charOfInt_toNat (c : Char) : Text.charOfInt c.toNat = c := by
  have hvalid : (c.toNat : Int).toNat.isValidChar := c.valid
  rw [Text.charOfInt, dif_pos hvalid, if_pos (Int.natCast_nonneg _)]
  rfl

/-- A character is written by its name, or as it is even if it is a delimiter. -/
theorem writes_character (c : Char) :
    Writes (Value.renderCharacter (Int32.ofNat c.toNat)) (IsToken .char (encodeChar c)) := by
  simp only [Value.renderCharacter, toInt_ofNat_toNat]
  split
  · next word d hfind =>
    have hsame : (c.toNat : Int) = d.toNat := by simpa using List.find?_some hfind
    obtain rfl : c = d := Char.toNat_inj.1 (by exact_mod_cast hsame)
    exact writes_named (List.mem_of_find?_eq_some hfind)
  · rw [charOfInt_toNat]
    refine writes_token (by decide) fun rest p hrest => ?_
    obtain ⟨q, hspan⟩ := @spanAtom_append [] (glyphs rest) nofun hrest.head_isDelimiter
      (((p.after ⟨'#', [35]⟩).after ⟨'\\', [92]⟩).after ⟨c, encodeChar c⟩)
    have hall : glyphs (lit "#\\" ++ encodeChar c ++ rest) =
        ⟨'#', [35]⟩ :: ⟨'\\', [92]⟩ :: ⟨c, encodeChar c⟩ :: glyphs rest := by
      rw [List.append_assoc,
        show lit "#\\" ++ (encodeChar c ++ rest) = 35 :: 92 :: (encodeChar c ++ rest) from rfl,
        Text.glyphs_ascii (by decide), glyphs_backslash, Text.glyphs_encodeChar]
      rfl
    refine ⟨⟨.char, encodeChar c, p, q⟩, q, rfl, rfl, ?_⟩
    rw [hall]
    refine scanFrom_character ?_
    rw [scanCharacter, if_neg (by decide)]
    rw [List.nil_append] at hspan
    simp only [hspan]
    rfl

/-! ### Lists -/

/-- Texts with a space between them are scanned one after the other. -/
theorem writes_items {texts : List Bytes} {Ms : List (Datum → Prop)}
    (h : List.Forall₂ Writes texts Ms) (rest : Bytes) (p : Position) (hrest : Bounded rest) :
    ∃ ds ts q, List.Forall₂ (fun M d => M d) Ms ds ∧ Datum.Grammar ds ts ∧
      scanFrom (glyphs (Text.join (lit " ") texts ++ rest)) p =
        (scanFrom (glyphs rest) q).behind ts := by
  induction h generalizing p with
  | nil => exact ⟨[], [], p, .nil, .nil, rfl⟩
  | @cons text M texts Ms htext htexts ih =>
    cases htexts with
    | nil =>
      obtain ⟨d, ts, q, hd, hts, hscan⟩ := htext rest p hrest
      exact ⟨[d], ts, q, .cons hd .nil, hts, by rwa [Text.join, List.intercalate_singleton]⟩
    | @cons text' M' texts Ms htext' htexts =>
      have hjoin : Text.join (lit " ") (text :: text' :: texts) ++ rest =
          text ++ 32 :: (Text.join (lit " ") (text' :: texts) ++ rest) := by
        rw [Text.join, List.intercalate_cons_cons, List.append_assoc, List.append_assoc]
        rfl
      obtain ⟨d, ts, q, hd, hts, hscan⟩ := htext _ p (bounded_space _)
      obtain ⟨ds, more, q', hds, hmore, hrest'⟩ := ih (q.after ⟨' ', [32]⟩)
      refine ⟨d :: ds, ts ++ more, q', .cons hd hds, hts.append hmore, ?_⟩
      rw [hjoin, hscan, scanFrom_space, hrest', Tokens.behind_behind]

theorem writes_list {texts : List Bytes} {Ms : List (Datum → Prop)}
    (h : List.Forall₂ Writes texts Ms) :
    Writes (Expr.parenthesised texts) fun d =>
      ∃ o items stop, d = .list o items stop ∧ List.Forall₂ (fun M d => M d) Ms items := by
  intro rest p _
  have hall : Expr.parenthesised texts ++ rest =
      40 :: (Text.join (lit " ") texts ++ 41 :: rest) := by
    rw [Expr.parenthesised, List.append_assoc]
    rfl
  rw [hall]
  obtain ⟨o, q, ho, hopening⟩ := scanFrom_opening (Text.join (lit " ") texts ++ 41 :: rest) p
  obtain ⟨items, inner, q', hitems, hinner, hscan⟩ := writes_items h _ q (bounded_closing rest)
  obtain ⟨c, q'', hc, hclosing⟩ := scanFrom_closing rest q'
  refine ⟨.list o items c.stop, o :: (inner ++ [c]), q'', ⟨o, items, c.stop, rfl, hitems⟩,
    .list ho hc hinner .nil, ?_⟩
  rw [hopening, hscan, hclosing, Tokens.behind_behind, Tokens.behind_behind]
  rfl

end Token
end StackLisp
