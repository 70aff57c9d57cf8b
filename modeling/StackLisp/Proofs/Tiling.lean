import StackLisp.Proofs.LineEnds
import StackLisp.Proofs.Places

/-! Where tokens stand. The tokens of a text follow each other in it, with nothing but white space
and comments between them, and every place that the scanner records is that of a character: its line
and column can be counted in the text before it. -/
namespace StackLisp

namespace Text

/-- White space and comments. A comment runs to the end of its line; in front of the end of a text,
which `last` tells, it may run to that end. -/
inductive Gap (last : Bool) : Bytes → Prop where
  | nil : Gap last []
  | blank {space rest : Bytes} : (∀ c ∈ chars space, isBlank c = true) → Gap last rest →
      Gap last (space ++ rest)
  | comment {body rest : Bytes} : 10 ∉ body → Gap last rest → Gap last (59 :: (body ++ 10 :: rest))
  | lastComment {body : Bytes} : last = true → 10 ∉ body → Gap last (59 :: body)

/-- The bytes of a text from one offset to another. -/
def between (text : Bytes) (a b : Nat) : Bytes := (text.take b).drop a

end Text

open Text (Glyph glyphs Gap between)

/-! ### Places -/

/-- The place is one of the text, between two characters of it. Its line is the number of line ends
before it, and its column the number of characters behind the last of them. -/
structure Position.Exact (file text : Bytes) (p : Position) : Prop where
  bound : p.offset ≤ text.length
  boundary : glyphs text = glyphs (text.take p.offset) ++ glyphs (text.drop p.offset)
  line : p.line = (text.take p.offset).count 10
  column : p.column = (glyphs ((text.take p.offset).rtakeWhile (· ≠ 10))).length
  file : p.file = file

/-- The scanner is at the place `p` with the characters `front` behind it and `left` ahead. -/
structure Position.Reached (file text : Bytes) (front left : List Glyph) (p : Position) : Prop where
  characters : glyphs text = front ++ left
  offset : p.offset = (front.flatMap Glyph.bytes).length
  line : p.line = front.countP fun g => g.char = '\n'
  column : p.column = (front.rtakeWhile fun g => g.char ≠ '\n').length
  file : p.file = file

namespace Position.Reached

variable {file text : Bytes} {front part left rest : List Glyph} {g : Glyph} {p q : Position}

theorem start (file text : Bytes) :
    ({ file } : Position).Reached file text [] (glyphs text) := ⟨rfl, rfl, rfl, rfl, rfl⟩

/-- The step of the scanner: whatever it looks at, it passes one character after another. -/
theorem after (h : p.Reached file text front (g :: left)) :
    (p.after g).Reached file text (front ++ [g]) left := by
  have hcharacters : glyphs text = front ++ [g] ++ left := by
    rw [h.characters, List.append_assoc, List.singleton_append]
  have hoffset : p.offset + g.bytes.length = ((front ++ [g]).flatMap Glyph.bytes).length := by
    rw [List.flatMap_append, List.flatMap_singleton, List.length_append, h.offset]
  unfold Position.after
  split
  · next hline =>
    refine ⟨hcharacters, hoffset, ?_, ?_, h.file⟩
    · rw [List.countP_append, List.countP_singleton, if_pos (decide_eq_true hline),
        Int.natCast_add, ← h.line]
      rfl
    · rw [List.rtakeWhile_concat_neg _ _ _ (by simpa using hline)]
      rfl
  · next hline =>
    refine ⟨hcharacters, hoffset, ?_, ?_, h.file⟩
    · rw [List.countP_append, List.countP_singleton, if_neg (by simpa using hline), Nat.add_zero,
        ← h.line]
    · rw [List.rtakeWhile_concat_pos _ _ _ (by simpa using hline), List.length_append,
        Int.natCast_add, ← h.column]
      rfl

theorem ahead (h : p.Reached file text front left) (hahead : Token.Ahead left p rest q) :
    ∃ part, left = part ++ rest ∧ q.Reached file text (front ++ part) rest := by
  induction hahead with
  | here => exact ⟨[], rfl, by rwa [List.append_nil]⟩
  | @next g rest q _ ih =>
    obtain ⟨part, rfl, hq⟩ := ih
    refine ⟨part ++ [g], by rw [List.append_assoc, List.singleton_append], ?_⟩
    rw [← List.append_assoc]
    exact hq.after

theorem decoded (h : p.Reached file text front left) : ∀ g ∈ front ++ left, g.Decoded := by
  rw [← h.characters]
  exact fun g hg => Text.decoded_of_mem hg

theorem text_eq (h : p.Reached file text front left) :
    text = front.flatMap Glyph.bytes ++ left.flatMap Glyph.bytes := by
  rw [← List.flatMap_append, ← h.characters, Text.flatMap_bytes_glyphs]

theorem take_offset (h : p.Reached file text front left) :
    text.take p.offset = front.flatMap Glyph.bytes := by
  rw [h.text_eq, h.offset, List.take_left]

theorem drop_offset (h : p.Reached file text front left) :
    text.drop p.offset = left.flatMap Glyph.bytes := by
  rw [h.text_eq, h.offset, List.drop_left]

theorem isExact (h : p.Reached file text front left) : p.Exact file text := by
  have hfront : ∀ g ∈ front, g.Decoded := (List.forall_mem_append.1 h.decoded).1
  have hfirst : glyphs text = [] ++ front ++ left := h.characters
  have hlast : glyphs text = front ++ left ++ [] := by rw [h.characters, List.append_nil]
  refine ⟨?_, ?_, ?_, ?_, h.file⟩
  · rw [h.text_eq, List.length_append, h.offset]
    exact Nat.le_add_right _ _
  · rw [h.take_offset, h.drop_offset, Text.glyphs_flatMap_bytes hfirst,
      Text.glyphs_flatMap_bytes hlast, h.characters]
  · rw [h.take_offset, h.line, Text.count_flatMap_bytes hfront]
  · obtain ⟨before, hbefore⟩ := List.rtakeWhile_suffix (fun g : Glyph => g.char ≠ '\n') front
    have hline : glyphs text = before ++ front.rtakeWhile (fun g => g.char ≠ '\n') ++ left := by
      rw [hbefore, h.characters]
    rw [h.take_offset, h.column, Text.rtakeWhile_flatMap_bytes hfront,
      Text.glyphs_flatMap_bytes hline]

theorem offset_le (h : p.Reached file text front left)
    (hq : q.Reached file text (front ++ part) rest) : p.offset ≤ q.offset := by
  rw [h.offset, hq.offset, List.flatMap_append, List.length_append]
  exact Nat.le_add_right _ _

theorem offset_lt (h : p.Reached file text front (g :: left))
    (hq : q.Reached file text (front ++ [g] ++ part) rest) : p.offset < q.offset := by
  have hg : g.Decoded := h.decoded g (by simp)
  have hpositive := List.length_pos_iff.2 hg.bytes_ne_nil
  have hnext := h.after.offset_le hq
  have hlength : (p.after g).offset = p.offset + g.bytes.length := by
    unfold Position.after
    split <;> rfl
  omega

theorem between_eq (h : p.Reached file text front left)
    (hq : q.Reached file text (front ++ part) rest) :
    between text p.offset q.offset = part.flatMap Glyph.bytes := by
  rw [between, hq.take_offset, h.offset, List.flatMap_append, List.drop_left]

end Position.Reached

namespace Token

/-! ### What is passed over -/

/-- What may follow the semicolon of a comment. -/
def CommentRest (last : Bool) (bs : Bytes) : Prop :=
  (last = true ∧ 10 ∉ bs) ∨ ∃ body rest, bs = body ++ 10 :: rest ∧ 10 ∉ body ∧ Gap last rest

theorem CommentRest.gap {last : Bool} {bs : Bytes} (h : CommentRest last bs) :
    Gap last (59 :: bs) := by
  rcases h with ⟨hlast, hbs⟩ | ⟨body, rest, rfl, hbody, hrest⟩
  · exact .lastComment hlast hbs
  · exact .comment hbody hrest

theorem CommentRest.append {last : Bool} {bs front : Bytes} (h : CommentRest last bs)
    (hfront : 10 ∉ front) : CommentRest last (front ++ bs) := by
  rcases h with ⟨hlast, hbs⟩ | ⟨body, rest, rfl, hbody, hrest⟩
  · exact .inl ⟨hlast, by simp [hfront, hbs]⟩
  · exact .inr ⟨front ++ body, rest, by rw [List.append_assoc], by simp [hfront, hbody], hrest⟩

theorem gap_of_skipBlank {comment : Bool} {gs left : List Glyph} {p q : Position}
    (h : skipBlank comment gs p = (left, q)) (hdecoded : ∀ g ∈ gs, g.Decoded) :
    ∃ part, gs = part ++ left ∧
      if comment then CommentRest left.isEmpty (part.flatMap Glyph.bytes)
      else Gap left.isEmpty (part.flatMap Glyph.bytes) := by
  fun_induction skipBlank comment gs p with
  | case1 comment p =>
    cases h
    refine ⟨[], rfl, ?_⟩
    cases comment with
    | true => exact .inl ⟨rfl, List.not_mem_nil⟩
    | false => exact .nil
  | case2 g gs p ih =>
    obtain ⟨hg, hgs⟩ := List.forall_mem_cons.1 hdecoded
    obtain ⟨part, rfl, hpart⟩ := ih h hgs
    refine ⟨g :: part, rfl, ?_⟩
    rw [List.flatMap_cons, if_pos rfl]
    -- only a line end leaves the comment
    by_cases hline : g.char = '\n'
    · rw [hline, if_neg (by decide)] at hpart
      rw [hg.bytes_of_lineEnd hline]
      exact .inr ⟨[], _, rfl, List.not_mem_nil, hpart⟩
    · rw [if_pos (by simpa using hline)] at hpart
      exact hpart.append (hg.not_mem_of_not_lineEnd hline)
  | case3 g gs p hcomment ih =>
    obtain ⟨hg, hgs⟩ := List.forall_mem_cons.1 hdecoded
    obtain ⟨part, rfl, hpart⟩ := ih h hgs
    refine ⟨g :: part, rfl, ?_⟩
    rw [List.flatMap_cons, hg.bytes_of_ascii hcomment (by decide) (by decide)]
    exact hpart.gap
  | case4 g gs p hcomment hblank ih =>
    obtain ⟨hg, hgs⟩ := List.forall_mem_cons.1 hdecoded
    obtain ⟨part, rfl, hpart⟩ := ih h hgs
    refine ⟨g :: part, rfl, ?_⟩
    rw [List.flatMap_cons]
    refine .blank (fun c hc => ?_) hpart
    rw [hg.chars_bytes, List.mem_singleton] at hc
    rwa [hc]
  | case5 =>
    cases h
    exact ⟨[], rfl, .nil⟩

/-! ### What is taken -/

/-- All tokens but strings and characters keep the bytes of what they take. -/
theorem bytes_of_scanToken {g : Glyph} {gs rest : List Glyph} {p q : Position} {t : Token}
    (h : scanToken g gs p = .ok (t, rest, q)) (hstring : t.kind ≠ .string) (hchar : t.kind ≠ .char) :
    (g :: gs).flatMap Glyph.bytes = t.literal ++ rest.flatMap Glyph.bytes := by
  rcases (scanToken_cases h).2.2.2 with ⟨-, hliteral, rfl⟩ | ⟨hkind, -⟩ | ⟨hkind, -⟩ |
      ⟨-, -, taken, rfl, hliteral, -⟩
  · rw [hliteral, List.flatMap_cons]
  · exact absurd hkind hstring
  · exact absurd hkind hchar
  · rw [hliteral, ← List.flatMap_append, List.cons_append]

theorem fault_of_scanString {start p : Position} {gs : List Glyph} {f : LocatedFault}
    (h : scanString start gs p = .error f) :
    (f.start = start ∧ ∃ left, Ahead gs p left f.stop) ∨
      ∃ part left, Ahead gs p part f.start ∧ Ahead part f.start left f.stop := by
  fun_induction scanString start gs p generalizing f with
  | case1 p =>
    cases h
    exact .inl ⟨rfl, [], .here⟩
  | case2 => cases h
  | case3 g p =>
    cases h
    exact .inl ⟨rfl, [], .next .here⟩
  | case4 g p _ _ e gs =>
    cases h
    exact .inr ⟨_, gs, .here, .next (.next .here)⟩
  | case5 g p _ _ e gs c _ ih =>
    rcases ih (Except.error_of_bind h) with ⟨hstart, left, hstop⟩ | ⟨part, left, hstart, hstop⟩
    · exact .inl ⟨hstart, left, hstop.skip.skip⟩
    · exact .inr ⟨part, left, hstart.skip.skip, hstop⟩
  | case6 g gs p _ _ ih =>
    rcases ih (Except.error_of_bind h) with ⟨hstart, left, hstop⟩ | ⟨part, left, hstart, hstop⟩
    · exact .inl ⟨hstart, left, hstop.skip⟩
    · exact .inr ⟨part, left, hstart.skip, hstop⟩

theorem fault_of_scanCharacter {start p : Position} {gs : List Glyph} {f : LocatedFault}
    (h : scanCharacter start gs p = .error f) :
    f.start = start ∧ ∃ left, Ahead gs p left f.stop := by
  unfold scanCharacter at h
  split at h
  · cases h
    exact ⟨rfl, [], .here⟩
  · next g gs =>
    split at h
    · cases h
      exact ⟨rfl, g :: gs, .here⟩
    · split at h
      · cases h
        exact ⟨rfl, [], .next .here⟩
      · next c tail =>
        have hrest := (ahead_spanAtom tail ((p.after g).after c)).skip.skip
        split at h
        next hspan =>
        rw [hspan] at hrest
        split at h
        · cases h
        · dsimp only at h
          split at h
          · cases h
          · cases h
            exact ⟨rfl, _, hrest⟩

/-- A fault starts no earlier than its token and ends behind the first character of the token. -/
theorem fault_of_scanToken {g : Glyph} {gs : List Glyph} {p : Position} {f : LocatedFault}
    (h : scanToken g gs p = .error f) :
    ∃ part left, Ahead (g :: gs) p part f.start ∧ Ahead part f.start left f.stop ∧
      Ahead gs (p.after g) left f.stop := by
  have atStart {left : List Glyph} (hstart : f.start = p)
      (hstop : Ahead gs (p.after g) left f.stop) :
      ∃ part left, Ahead (g :: gs) p part f.start ∧ Ahead part f.start left f.stop ∧
        Ahead gs (p.after g) left f.stop := by
    rw [hstart]
    exact ⟨g :: gs, left, .here, hstop.skip, hstop⟩
  unfold scanToken at h
  split at h
  · cases h
  split at h
  · cases h
  split at h
  · cases h
  split at h
  · rcases fault_of_scanString (Except.error_of_bind h) with
      ⟨hstart, left, hstop⟩ | ⟨part, left, hstart, hstop⟩
    · exact atStart hstart hstop
    · exact ⟨part, left, hstart.skip, hstop, hstart.trans hstop⟩
  split at h
  · obtain ⟨hstart, left, hstop⟩ := fault_of_scanCharacter (Except.error_of_bind h)
    exact atStart hstart hstop
  · cases h

/-! ### All tokens -/

/-- The token is not empty and its ends are places of the text. A name or a number holds the bytes
between them. -/
structure Placed (file text : Bytes) (t : Token) : Prop where
  start : t.start.Exact file text
  stop : t.stop.Exact file text
  nonempty : t.start.offset < t.stop.offset
  literal : t.kind ≠ .string → t.kind ≠ .char →
    t.literal = between text t.start.offset t.stop.offset

end Token

/-- The fault is in the text, not before the token in which it is found. -/
structure ScanFault.Placed (file text : Bytes) (f : ScanFault) : Prop where
  token : f.tokenStart.Exact file text
  start : f.located.start.Exact file text
  stop : f.located.stop.Exact file text
  inside : f.tokenStart.offset ≤ f.located.start.offset
  ordered : f.located.start.offset ≤ f.located.stop.offset
  nonempty : f.tokenStart.offset < f.located.stop.offset

/-- From an offset on, the text consists of the tokens and of gaps around them, up to its end or to
the token that cannot be scanned. -/
inductive Tiles (file text : Bytes) : Nat → List Token → Ending → Prop where
  | finished {n : Nat} {place : Position} : Gap true (text.drop n) → place.Exact file text →
      place.offset = text.length → Tiles file text n [] (.finished place)
  | failed {n : Nat} {f : ScanFault} : n ≤ f.tokenStart.offset →
      Gap false (between text n f.tokenStart.offset) → f.Placed file text →
      Tiles file text n [] (.failed f)
  | token {n : Nat} {t : Token} {ts : List Token} {ending : Ending} : n ≤ t.start.offset →
      Gap false (between text n t.start.offset) → t.Placed file text →
      Tiles file text t.stop.offset ts ending → Tiles file text n (t :: ts) ending

namespace Token

variable {file text : Bytes} {front gs left rest : List Glyph} {g : Glyph} {p q : Position}

theorem reached_skipBlank (hp : p.Reached file text front gs)
    (h : skipBlank false gs p = (left, q)) : ∃ part, q.Reached file text (front ++ part) left ∧
      Gap left.isEmpty (part.flatMap Glyph.bytes) ∧ gs = part ++ left := by
  have hgs : ∀ g ∈ gs, g.Decoded := (List.forall_mem_append.1 hp.decoded).2
  obtain ⟨part, hsplit, hgap⟩ := gap_of_skipBlank h hgs
  have hahead := ahead_skipBlank false gs p
  rw [h] at hahead
  -- what was passed is the same whether it is read as a gap or counted
  obtain ⟨part', hsplit', hq⟩ := hp.ahead hahead
  cases List.append_cancel_right (hsplit.symm.trans hsplit')
  exact ⟨part, hq, hgap, hsplit⟩

theorem placed_of_scanToken {t : Token} (hp : p.Reached file text front (g :: gs))
    (h : scanToken g gs p = .ok (t, rest, q)) : t.Placed file text ∧
      ∃ part, t.stop.Reached file text (front ++ [g] ++ part) rest := by
  obtain ⟨hahead, hstart, hstop, -⟩ := scanToken_cases h
  obtain ⟨part, rfl, hq⟩ := hp.after.ahead hahead
  subst hstart hstop
  refine ⟨⟨hp.isExact, hq.isExact, hp.offset_lt hq, fun hstring hchar => ?_⟩, part, hq⟩
  have hbytes := bytes_of_scanToken h hstring hchar
  rw [← List.cons_append, List.flatMap_append] at hbytes
  rw [List.append_assoc] at hq
  rw [hp.between_eq hq]
  exact (List.append_cancel_right hbytes).symm

theorem placed_of_fault {f : LocatedFault} (hp : p.Reached file text front (g :: gs))
    (h : scanToken g gs p = .error f) : (ScanFault.mk f p).Placed file text := by
  obtain ⟨part, left, hstart, hstop, hbehind⟩ := fault_of_scanToken h
  obtain ⟨more, -, hstart⟩ := hp.ahead hstart
  obtain ⟨inside, -, hstop⟩ := hstart.ahead hstop
  obtain ⟨taken, -, hbehind⟩ := hp.after.ahead hbehind
  exact ⟨hp.isExact, hstart.isExact, hstop.isExact, hp.offset_le hstart, hstart.offset_le hstop,
    hp.offset_lt hbehind⟩

theorem tiles_scanFrom (gs : List Glyph) (p : Position) :
    ∀ front, p.Reached file text front gs →
      Tiles file text p.offset (scanFrom gs p).list (scanFrom gs p).ending := by
  fun_induction scanFrom gs p with
  | case1 gs p q hblank =>
    intro front hp
    obtain ⟨part, hq, hgap, rfl⟩ := reached_skipBlank hp hblank
    refine .finished ?_ hq.isExact ?_
    · rw [hp.drop_offset, List.append_nil]
      exact hgap
    · rw [hq.offset, hq.text_eq, List.length_append]
      rfl
  | case2 gs p g rest q hblank f htoken =>
    intro front hp
    obtain ⟨part, hq, hgap, rfl⟩ := reached_skipBlank hp hblank
    refine .failed (hp.offset_le hq) ?_ (placed_of_fault hq htoken)
    rw [hp.between_eq hq]
    exact hgap
  | case3 gs p g rest q hblank t left r htoken ts ih =>
    intro front hp
    obtain ⟨part, hq, hgap, rfl⟩ := reached_skipBlank hp hblank
    obtain ⟨hplaced, more, hstop⟩ := placed_of_scanToken hq htoken
    obtain ⟨-, hstart, hr, -⟩ := scanToken_cases htoken
    rw [hr] at hstop
    refine .token ?_ ?_ hplaced ?_
    · rw [hstart]
      exact hp.offset_le hq
    · rw [hstart, hp.between_eq hq]
      exact hgap
    · rw [hr]
      exact ih _ hstop

/-- Every text is covered by its tokens, in order and without overlap, and by the white space and
the comments around them, up to the first fault. There are no more tokens than bytes, and all
recorded places are exact. -/
theorem scan_tiles (file text : Bytes) : (scan file text).list.length ≤ text.length ∧
    Tiles file text 0 (scan file text).list (scan file text).ending :=
  ⟨length_scan_le file text, tiles_scanFrom _ _ [] (Position.Reached.start file text)⟩

end Token
end StackLisp
