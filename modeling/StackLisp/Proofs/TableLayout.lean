import Mathlib.Data.List.Forall2
import StackLisp.Proofs.Decoding
import StackLisp.Table

/-! How tables look. Colors take no room, and what is drawn between the cells keeps them apart from
each other, so all lines of a table are equally wide and its columns stand below each other. -/
namespace StackLisp.Table

open Text (lit newline spaces repeated)

/-- What is seen of a text. -/
def display (text : Bytes) : List Char := Text.chars (withoutColors text)

theorem width_eq (text : Bytes) : width text = (display text).length := by
  rw [display, Text.chars, List.length_map, width]

/-- A byte that is a character of its own and no part of a color sequence. -/
def Plain (b : UInt8) : Prop :=
  b < 0x80 ∧ b ≠ 27 ∧ b ≠ 91 ∧ b ≠ 109 ∧ b ≠ 59 ∧ Text.isDigit b = false

instance (b : UInt8) : Decidable (Plain b) := inferInstanceAs (Decidable (_ ∧ _))

section
variable {b : UInt8} {text rest left : Bytes}

theorem afterColor_append (h : afterColor text = some left) (more : Bytes) :
    afterColor (text ++ more) = some (left ++ more) := by
  fun_induction afterColor text with
  | case1 => cases h
  | case2 rest =>
    cases h
    rw [List.cons_append, afterColor, if_pos rfl]
  | case3 c rest hend hgoes ih => rw [List.cons_append, afterColor, if_neg hend, if_pos hgoes, ih h]
  | case4 => cases h

/-- A sequence that has begun does not go on behind a plain byte. -/
theorem afterColor_append_plain (hb : Plain b) (h : afterColor text = none) (rest : Bytes) :
    afterColor (text ++ b :: rest) = none := by
  obtain ⟨-, -, -, hend, hsep, hdigit⟩ := hb
  fun_induction afterColor text with
  | case1 => rw [List.nil_append, afterColor, if_neg hend, if_neg (by simp [hdigit, hsep])]
  | case2 => cases h
  | case3 c text hnot hgoes ih => rw [List.cons_append, afterColor, if_neg hnot, if_pos hgoes, ih h]
  | case4 c text hnot hstops => rw [List.cons_append, afterColor, if_neg hnot, if_neg hstops]

theorem withoutColors_color (h : afterColor text = some left) :
    withoutColors (27 :: 91 :: text) = withoutColors left := by
  rw [withoutColors]
  split
  · next heq => rw [Option.some.inj (heq.symm.trans h)]
  · next heq => cases heq.symm.trans h

theorem withoutColors_open (h : afterColor text = none) :
    withoutColors (27 :: 91 :: text) = 27 :: withoutColors (91 :: text) := by
  rw [withoutColors]
  split
  · next heq => cases heq.symm.trans h
  · rfl

theorem withoutColors_cons (h : ∀ r, b :: text ≠ 27 :: 91 :: r) :
    withoutColors (b :: text) = b :: withoutColors text := by
  rw [withoutColors]
  rintro r rfl rfl
  exact h r rfl

theorem withoutColors_plain (hb : Plain b) (rest : Bytes) :
    withoutColors (b :: rest) = b :: withoutColors rest :=
  withoutColors_cons fun _ heq => hb.2.1 (List.cons.inj heq).1

theorem withoutColors_append (hb : Plain b) (text rest : Bytes) :
    withoutColors (text ++ b :: rest) = withoutColors text ++ withoutColors (b :: rest) := by
  fun_induction withoutColors text with
  | case1 text left h ih => exact (withoutColors_color (afterColor_append h _)).trans ih
  | case2 text h ih =>
    refine (withoutColors_open (afterColor_append_plain hb h rest)).trans ?_
    rw [List.cons_append, ← ih]
    rfl
  | case3 c text hnot ih =>
    rw [List.cons_append, List.cons_append, ← ih]
    refine withoutColors_cons fun r heq => ?_
    obtain ⟨rfl, htext⟩ := List.cons.inj heq
    cases text with
    | nil => exact hb.2.2.1 (List.cons.inj htext).1
    | cons d text =>
      obtain ⟨rfl, -⟩ := List.cons.inj htext
      exact hnot text rfl rfl
  | case4 => rfl

theorem display_plain (hb : Plain b) (rest : Bytes) :
    display (b :: rest) = Char.ofNat b.toNat :: display rest := by
  unfold display Text.chars
  rw [withoutColors_plain hb, Text.glyphs_ascii hb.1]
  rfl

/-- What stands before a plain byte is seen as it is seen alone. -/
theorem display_append (hb : Plain b) (text rest : Bytes) :
    display (text ++ b :: rest) = display text ++ display (b :: rest) := by
  have hfresh : Text.StartsFresh (withoutColors (b :: rest)) := by
    rw [withoutColors_plain hb]
    rintro c hc
    cases hc
    exact hb.1
  unfold display Text.chars
  rw [withoutColors_append hb, Text.glyphs_append hfresh, List.map_append]

theorem display_nil : display [] = [] := by
  rw [display, withoutColors]
  rfl

theorem display_repeated (hb : Plain b) (n : Nat) (rest : Bytes) :
    display (repeated n b ++ rest) = List.replicate n (Char.ofNat b.toNat) ++ display rest := by
  induction n with
  | zero => rfl
  | succ n ih =>
    rw [repeated, List.replicate_succ, List.cons_append, display_plain hb, ← repeated, ih,
      List.replicate_succ, List.cons_append]

end

/-- Fields with a mark before, between and behind them. -/
def framed (mark : UInt8) : List Bytes → Bytes
  | [] => [mark]
  | field :: fields => mark :: (field ++ framed mark fields)

/-- The columns of the display at which the boundaries of a table stand, counted from the left. A
column has a blank on both sides. -/
def edge : List Nat → Nat → Nat
  | w :: ws, i + 1 => w + 3 + edge ws i
  | _, _ => 0

section
variable {mark : UInt8}

theorem exists_framed (mark : UInt8) (fields : List Bytes) :
    ∃ rest, framed mark fields = mark :: rest := by
  cases fields with
  | nil => exact ⟨[], rfl⟩
  | cons field fields => exact ⟨_, rfl⟩

theorem display_framed_nil (hmark : Plain mark) :
    display (framed mark []) = [Char.ofNat mark.toNat] := by
  rw [framed, display_plain hmark, display_nil]

theorem display_framed_cons (hmark : Plain mark) (field : Bytes) (fields : List Bytes) :
    display (framed mark (field :: fields)) =
      Char.ofNat mark.toNat :: (display field ++ display (framed mark fields)) := by
  obtain ⟨rest, hrest⟩ := exists_framed mark fields
  rw [framed, display_plain hmark, hrest, display_append hmark]

theorem framed_append (front : List Bytes) (field : Bytes) (back : List Bytes) :
    framed mark (front ++ field :: back) = framed mark front ++ (field ++ framed mark back) := by
  induction front with
  | nil => rfl
  | cons first front ih =>
    rw [List.cons_append, framed, ih, framed, List.cons_append, List.append_assoc]

/-- Each field is seen between two marks as it is seen alone. -/
theorem display_framed_append (hmark : Plain mark) (front : List Bytes) (field : Bytes)
    (back : List Bytes) : display (framed mark (front ++ field :: back)) =
      display (framed mark front) ++ (display field ++ display (framed mark back)) := by
  induction front with
  | nil =>
    rw [List.nil_append, display_framed_cons hmark, display_framed_nil hmark]
    rfl
  | cons first front ih =>
    rw [List.cons_append, display_framed_cons hmark, ih, display_framed_cons hmark,
      List.cons_append, List.append_assoc]

/-- The fields fill the columns, with a blank on both sides. -/
def Fill (fields : List Bytes) (ws : List Nat) : Prop :=
  List.Forall₂ (fun field w => width field = w + 2) fields ws

variable {fields : List Bytes} {ws : List Nat}

/-- The fields in front of a column end at its left boundary. -/
theorem Fill.width_take (hmark : Plain mark) (h : Fill fields ws) {i : Nat} (hi : i ≤ ws.length) :
    width (framed mark (fields.take i)) = edge ws i + 1 := by
  rw [width_eq]
  induction h generalizing i with
  | nil =>
    rw [List.take_nil, display_framed_nil hmark]
    rfl
  | @cons field w fields ws hfield _ ih =>
    cases i with
    | zero =>
      rw [List.take_zero, display_framed_nil hmark]
      rfl
    | succ i =>
      rw [width_eq] at hfield
      rw [List.take_succ_cons, display_framed_cons hmark, List.length_cons, List.length_append,
        ih (Nat.le_of_succ_le_succ hi), hfield, edge]
      omega

theorem Fill.width_framed (hmark : Plain mark) (h : Fill fields ws) :
    width (framed mark fields) = edge ws ws.length + 1 := by
  have hwhole := h.width_take hmark (Nat.le_refl _)
  rwa [← List.Forall₂.length_eq h, List.take_length, List.Forall₂.length_eq h] at hwhole

/-- All boundaries are drawn. -/
theorem Fill.getElem?_framed (hmark : Plain mark) (h : Fill fields ws) {i : Nat} (hi : i ≤ ws.length) :
    (display (framed mark fields))[edge ws i]? = some (Char.ofNat mark.toNat) := by
  induction h generalizing i with
  | nil =>
    rw [display_framed_nil hmark]
    rfl
  | @cons field w fields ws hfield _ ih =>
    rw [display_framed_cons hmark]
    cases i with
    | zero => rfl
    | succ i =>
      rw [width_eq] at hfield
      have hindex : edge (w :: ws) (i + 1) = (display field).length + edge ws i + 1 := by
        rw [edge, hfield]
        omega
      rw [hindex, List.getElem?_cons_succ, List.getElem?_append_right (Nat.le_add_right _ _),
        Nat.add_sub_cancel_left, ih (Nat.le_of_succ_le_succ hi)]

end

/-- A text with blanks around it. -/
def padded (left right : Nat) (text : Bytes) : Bytes := spaces left ++ text ++ spaces right

/-- There is always room for the text: nothing is taken away where blanks are put. -/
theorem exists_pad {w : Nat} {text : Bytes} (h : width text ≤ w) (a : Alignment) :
    ∃ left right, pad w a text = padded left right text ∧ left + width text + right = w := by
  cases a with
  | left => exact ⟨0, w - width text, rfl, by omega⟩
  | right => exact ⟨w - width text, 0, (List.append_nil _).symm, by omega⟩
  | center =>
    exact ⟨(w - width text) / 2, (w - width text) - (w - width text) / 2, rfl, by omega⟩

theorem lit_newline : lit "\n" = [newline] := by decide

/-- A cell in its column. -/
def field (w : Nat) (a : Alignment) (cell : Bytes) : Bytes := 32 :: (pad w a cell ++ [32])

/-- What stands between the boundaries in the line of a row. -/
def fields : List Nat → List Alignment → List Bytes → List Bytes
  | [], _, _ => []
  | w :: ws, as, row => field w (as.headD .left) (row.headD []) :: fields ws as.tail row.tail

theorem cells_eq (ws : List Nat) (as : List Alignment) (row : List Bytes) :
    124 :: cells ws as row = framed 124 (fields ws as row) := by
  induction ws generalizing as row with
  | nil => rfl
  | cons w ws ih =>
    have hblank : lit " " = [32] := by decide
    have hmark : lit " |" = [32] ++ [124] := by decide
    rw [fields, framed, ← ih, cells, field, hblank, hmark]
    simp only [List.append_assoc, List.cons_append, List.nil_append]

theorem line_eq (ws : List Nat) (as : List Alignment) (row : List Bytes) :
    line ws as row = framed 124 (fields ws as row) ++ [newline] := by
  have hmark : lit "|" = [124] := by decide
  rw [← cells_eq, line, hmark, lit_newline, List.singleton_append]

/-- The line above and below the rows. -/
def rule (ws : List Nat) : Bytes := framed 43 (ws.map fun w => repeated (w + 2) 45)

theorem separator_eq (ws : List Nat) : separator ws = rule ws ++ [newline] := by
  have hmark : lit "+" = [43] := by decide
  have hframed : [43] ++ ws.flatMap (fun w => repeated (w + 2) 45 ++ [43]) = rule ws := by
    unfold rule
    induction ws with
    | nil => rfl
    | cons w ws ih =>
      rw [List.map_cons, framed, ← ih, List.flatMap_cons, List.append_assoc]
      rfl
  rw [separator, hmark, lit_newline, hframed]

theorem fill_rule (ws : List Nat) : Fill (ws.map fun w => repeated (w + 2) 45) ws := by
  induction ws with
  | nil => exact .nil
  | cons w ws ih =>
    refine .cons ?_ ih
    have hdash := display_repeated (by decide : Plain 45) (w + 2) []
    rw [List.append_nil, display_nil, List.append_nil] at hdash
    rw [width_eq, hdash, List.length_replicate]

theorem display_spaces (n : Nat) (rest : Bytes) :
    display (spaces n ++ rest) = List.replicate n ' ' ++ display rest :=
  display_repeated (by decide : Plain 32) n rest

theorem display_padded (left right : Nat) (text rest : Bytes) :
    display (32 :: (padded left right text ++ 32 :: rest)) = ' ' :: (List.replicate left ' ' ++
      (display text ++ (List.replicate right ' ' ++ ' ' :: display rest))) := by
  have hblank : Plain 32 := by decide
  have hright : spaces right ++ 32 :: rest = 32 :: (spaces right ++ rest) := by
    rw [← List.singleton_append, ← List.append_assoc, spaces, repeated, ← List.replicate_succ']
    rfl
  have hend : display (32 :: (spaces right ++ rest)) =
      List.replicate right ' ' ++ ' ' :: display rest := by
    rw [← hright, display_spaces, display_plain hblank]
    rfl
  rw [display_plain hblank, padded, List.append_assoc, List.append_assoc, hright, display_spaces,
    display_append hblank, hend]
  rfl

theorem width_field {w : Nat} {cell : Bytes} (h : width cell ≤ w) (a : Alignment) :
    width (field w a cell) = w + 2 := by
  obtain ⟨left, right, hpad, hsum⟩ := exists_pad h a
  rw [width_eq] at hsum
  rw [width_eq, field, hpad, display_padded, display_nil]
  simp only [List.length_cons, List.length_append, List.length_replicate, List.length_nil]
  omega

/-- The row has no more cells than there are columns, and no cell is wider than its column. -/
def Fits : List Nat → List Bytes → Prop
  | _, [] => True
  | [], _ :: _ => False
  | w :: ws, cell :: row => width cell ≤ w ∧ Fits ws row

theorem fits_nil (ws : List Nat) : Fits ws [] := by
  cases ws <;> exact trivial

theorem Fits.tail {w : Nat} {ws : List Nat} {row : List Bytes} (h : Fits (w :: ws) row) :
    width (row.headD []) ≤ w ∧ Fits ws row.tail := by
  cases row with
  | nil =>
    have hnone : width [] = 0 := by rw [width_eq, display_nil, List.length_nil]
    exact ⟨hnone ▸ Nat.zero_le w, fits_nil ws⟩
  | cons cell row => exact h

theorem Fits.length_le {ws : List Nat} {row : List Bytes} (h : Fits ws row) :
    row.length ≤ ws.length := by
  induction ws generalizing row with
  | nil =>
    cases row with
    | nil => exact Nat.le_refl _
    | cons cell row => cases h
  | cons w ws ih =>
    cases row with
    | nil => exact Nat.zero_le _
    | cons cell row => exact Nat.succ_le_succ (ih h.2)

theorem Fits.fill {ws : List Nat} {row : List Bytes} (h : Fits ws row) (as : List Alignment) :
    Fill (fields ws as row) ws := by
  induction ws generalizing as row with
  | nil => exact .nil
  | cons w ws ih => exact .cons (width_field h.tail.1 _) (ih h.tail.2 as.tail)

/-- The fields of a row in front of a column, in it and behind it. -/
theorem Fits.exists_fields {ws : List Nat} {row : List Bytes} (h : Fits ws row)
    (as : List Alignment) {i w : Nat} (hi : ws[i]? = some w) :
    ∃ a back, width (row.getD i []) ≤ w ∧
      fields ws as row = (fields ws as row).take i ++ field w a (row.getD i []) :: back := by
  induction ws generalizing as row i with
  | nil => cases hi
  | cons v ws ih =>
    cases i with
    | zero =>
      cases hi
      refine ⟨as.headD .left, fields ws as.tail row.tail, ?_⟩
      have hcell : row.getD 0 [] = row.headD [] := by cases row <;> rfl
      rw [hcell]
      exact ⟨h.tail.1, rfl⟩
    | succ i =>
      obtain ⟨a, back, hle, heq⟩ := ih h.tail.2 as.tail hi
      have hcell : row.getD (i + 1) [] = row.tail.getD i [] := by cases row <;> rfl
      refine ⟨a, back, hcell ▸ hle, ?_⟩
      rw [fields, List.take_succ_cons, hcell]
      exact congrArg _ heq

theorem Fits.widen {ws : List Nat} {row : List Bytes} (h : Fits ws row) (vs : List Nat) :
    Fits (widen ws vs) row := by
  fun_induction Table.widen ws vs generalizing row with
  | case1 vs =>
    cases row with
    | nil => exact fits_nil vs
    | cons cell row => cases h
  | case2 ws => exact h
  | case3 w ws v vs ih =>
    cases row with
    | nil => exact fits_nil _
    | cons cell row => exact ⟨Nat.le_trans h.1 (Nat.le_max_left w v), ih h.2⟩

theorem fits_widen (ws : List Nat) (row : List Bytes) : Fits (widen ws (row.map width)) row := by
  induction row generalizing ws with
  | nil => exact fits_nil _
  | cons cell row ih =>
    cases ws with
    | nil => exact ⟨Nat.le_refl _, by simpa [widen] using ih []⟩
    | cons w ws => exact ⟨Nat.le_max_right w _, ih ws⟩

/-- Every row that has been measured fits, whatever is measured after it. -/
theorem fits_foldl (rows : List (List Bytes)) (ws : List Nat) :
    (∀ row, Fits ws row → Fits (rows.foldl (fun ws row => widen ws (row.map width)) ws) row) ∧
      ∀ row ∈ rows, Fits (rows.foldl (fun ws row => widen ws (row.map width)) ws) row := by
  induction rows generalizing ws with
  | nil => exact ⟨fun _ h => h, fun row hrow => absurd hrow List.not_mem_nil⟩
  | cons first rows ih =>
    obtain ⟨hkept, hrows⟩ := ih (widen ws (first.map width))
    refine ⟨fun row h => hkept row (h.widen _), fun row hrow => ?_⟩
    rcases List.mem_cons.1 hrow with rfl | hrow
    · exact hkept row (fits_widen ws row)
    · exact hrows row hrow

theorem fits_widths (t : Table) : ∀ row ∈ t.header :: t.rows, Fits t.widths row :=
  (fits_foldl (t.header :: t.rows) []).2

/-- A single line that ends at the right border and has a boundary wherever one belongs. -/
structure Ruled (ws : List Nat) (mark : Char) (line : Bytes) : Prop where
  whole : newline ∉ line
  size : width line = edge ws ws.length + 1
  marks : ∀ i ≤ ws.length, (display line)[edge ws i]? = some mark

/-- The line of a row. In every column, from its left boundary to its right one, there stands
the text of the cell between blanks; where the row has no cell there are only blanks. -/
structure Shows (ws : List Nat) (row : List Bytes) (line : Bytes) : Prop extends
    Ruled ws '|' line where
  room : row.length ≤ ws.length
  cells : ∀ i w, ws[i]? = some w → ∃ before left right after,
    line = before ++ (spaces left ++ row.getD i [] ++ spaces right) ++ after ∧
    display line = display before ++
      (List.replicate left ' ' ++ display (row.getD i []) ++ List.replicate right ' ') ++
      display after ∧
    width before = edge ws i + 2 ∧ left + width (row.getD i []) + right = w

theorem newline_not_mem_framed {mark : UInt8} (hmark : newline ≠ mark) {fields : List Bytes}
    (h : ∀ field ∈ fields, newline ∉ field) : newline ∉ framed mark fields := by
  induction fields with
  | nil => exact List.mem_singleton.not.2 hmark
  | cons field fields ih =>
    obtain ⟨hfield, hfields⟩ := List.forall_mem_cons.1 h
    rw [framed, List.mem_cons, List.mem_append]
    exact not_or.2 ⟨hmark, not_or.2 ⟨hfield, ih hfields⟩⟩

theorem newline_not_mem_fields {row : List Bytes} (h : ∀ cell ∈ row, newline ∉ cell)
    (ws : List Nat) (as : List Alignment) : ∀ field ∈ fields ws as row, newline ∉ field := by
  have hspaces (n : Nat) : newline ∉ spaces n := fun hmem =>
    absurd (List.eq_of_mem_replicate hmem) (by decide)
  have hpad {cell : Bytes} (hcell : newline ∉ cell) (w : Nat) (a : Alignment) :
      newline ∉ pad w a cell := by
    cases a <;> simp [pad, hspaces, hcell]
  induction ws generalizing as row with
  | nil => exact fun _ hmem => absurd hmem List.not_mem_nil
  | cons w ws ih =>
    have hhead : newline ∉ row.headD [] := by
      cases row with
      | nil => exact List.not_mem_nil
      | cons cell row => exact h cell List.mem_cons_self
    refine List.forall_mem_cons.2 ⟨?_, ih (fun cell hcell => h cell (List.mem_of_mem_tail hcell)) _⟩
    rw [field, List.mem_cons, List.mem_append, List.mem_singleton]
    exact not_or.2 ⟨by decide, not_or.2 ⟨hpad hhead _ _, by decide⟩⟩

theorem ruled_rule (ws : List Nat) : Ruled ws '+' (rule ws) where
  whole := by
    refine newline_not_mem_framed (by decide) fun field hfield => ?_
    obtain ⟨w, -, rfl⟩ := List.mem_map.1 hfield
    exact fun hmem => absurd (List.eq_of_mem_replicate hmem) (by decide)
  size := (fill_rule ws).width_framed (by decide)
  marks _ hi := (fill_rule ws).getElem?_framed (by decide) hi

theorem Fits.shows {ws : List Nat} {row : List Bytes} (h : Fits ws row)
    (hrow : ∀ cell ∈ row, newline ∉ cell) (as : List Alignment) :
    Shows ws row (framed 124 (fields ws as row)) where
  whole := newline_not_mem_framed (by decide) (newline_not_mem_fields hrow ws as)
  size := (h.fill as).width_framed (by decide)
  marks _ hi := (h.fill as).getElem?_framed (by decide) hi
  room := h.length_le
  cells i w hi := by
    obtain ⟨a, back, hle, hfields⟩ := h.exists_fields as hi
    obtain ⟨left, right, hpad, hsum⟩ := exists_pad hle a
    have hmark : Plain 124 := by decide
    have hblank : Plain 32 := by decide
    have hline := (congrArg (framed 124) hfields).trans (framed_append _ _ _)
    have hseen := (congrArg (fun fields => display (framed 124 fields)) hfields).trans
      (display_framed_append hmark _ _ _)
    have hbefore : display (framed 124 ((fields ws as row).take i) ++ [32]) =
        display (framed 124 ((fields ws as row).take i)) ++ [' '] := by
      rw [display_append hblank, display_plain hblank, display_nil]
      rfl
    refine ⟨framed 124 ((fields ws as row).take i) ++ [32], left, right, 32 :: framed 124 back,
      ?_, ?_, ?_, hsum⟩
    · rw [hline, field, hpad]
      simp only [padded, List.append_assoc, List.cons_append, List.nil_append]
    · rw [hseen, field, hpad, display_padded, hbefore, display_plain hblank, display_nil]
      simp only [List.append_assoc, List.cons_append, List.nil_append]
      rfl
    · have hi : i ≤ ws.length := Nat.le_of_lt (List.getElem?_eq_some_iff.1 hi).1
      have htake := (h.fill as).width_take hmark hi
      rw [width_eq] at htake
      rw [width_eq, hbefore, List.length_append, htake, List.length_singleton]

theorem render_eq (t : Table) : render t =
    (rule t.widths :: ((if t.header = [] then [] else
        [framed 124 (fields t.widths t.headerAlignment t.header), rule t.widths]) ++
      t.rows.map fun row => framed 124 (fields t.widths t.columns row)) ++
        [rule t.widths]).flatMap (· ++ [newline]) := by
  have hrows : t.rows.flatMap (line t.widths t.columns) =
      (t.rows.map fun row => framed 124 (fields t.widths t.columns row)).flatMap
        (· ++ [newline]) := by
    rw [List.flatMap_map]
    exact List.flatMap_congr fun row _ => line_eq _ _ _
  unfold render
  dsimp only
  rw [hrows, separator_eq]
  split
  · simp only [List.flatMap_append, List.flatMap_cons, List.flatMap_nil, List.cons_append,
      List.nil_append, List.append_assoc]
  · simp only [line_eq, List.flatMap_append, List.flatMap_cons, List.flatMap_nil, List.cons_append,
      List.nil_append, List.append_assoc]

/-- A table is drawn as lines of one width: a border above and below the titles and the rows, and a
line for each row, with all boundaries below each other and every cell in its column. -/
theorem render_rectangular (t : Table)
    (h : ∀ row ∈ t.header :: t.rows, ∀ cell ∈ row, newline ∉ cell) :
    ∃ (border : Bytes) (head body : List Bytes),
      render t = (border :: (head ++ body) ++ [border]).flatMap (· ++ [newline]) ∧
      Ruled t.widths '+' border ∧
      (t.header = [] ∧ head = [] ∨
        t.header ≠ [] ∧ ∃ titles, head = [titles, border] ∧ Shows t.widths t.header titles) ∧
      List.Forall₂ (Shows t.widths) t.rows body := by
  have hshows (row : List Bytes) (hrow : row ∈ t.header :: t.rows) (as : List Alignment) :
      Shows t.widths row (framed 124 (fields t.widths as row)) :=
    (fits_widths t row hrow).shows (h row hrow) as
  refine ⟨_, _, _, render_eq t, ruled_rule t.widths, ?_, ?_⟩
  · by_cases hheader : t.header = []
    · exact .inl ⟨hheader, if_pos hheader⟩
    · exact .inr ⟨hheader, _, if_neg hheader, hshows _ List.mem_cons_self _⟩
  · rw [List.forall₂_map_right_iff]
    exact List.forall₂_same.2 fun row hrow => hshows row (List.mem_cons_of_mem _ hrow) _

/-- A table with a colored cell, a cell that is half a character, one that is half a color sequence,
and an empty row. -/
def palette : Table where
  header := [lit "name"]
  rows := [[lit "\x1b[1;31mred\x1b[0m", [0xE4, 0xB8]], [], [[27, 91, 51]]]
  columns := [.right, .center]

theorem render_rectangular_palette :
    (∀ row ∈ palette.header :: palette.rows, ∀ cell ∈ row, newline ∉ cell) ∧
      ∃ (border : Bytes) (head body : List Bytes),
        render palette = (border :: (head ++ body) ++ [border]).flatMap (· ++ [newline]) ∧
        Ruled palette.widths '+' border ∧
        (palette.header = [] ∧ head = [] ∨ palette.header ≠ [] ∧
          ∃ titles, head = [titles, border] ∧ Shows palette.widths palette.header titles) ∧
        List.Forall₂ (Shows palette.widths) palette.rows body := by
  have hcells : ∀ row ∈ palette.header :: palette.rows, ∀ cell ∈ row, newline ∉ cell := by decide
  exact ⟨hcells, render_rectangular palette hcells⟩

end StackLisp.Table
