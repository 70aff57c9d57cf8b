import StackLisp.Proofs.Persistence

/-! The places that are found for offsets of code. The location found for an instruction is the last
mark before it, and the marks that come from one text are told apart by their lines and columns. -/
namespace StackLisp

/-! ### The last mark -/

namespace Fragment

/-- Marks are kept apart by an instruction between them. -/
theorem locationsFrom_split (offset : Nat) (front : List Item) (i : Instruction)
    (back : List Item) : locationsFrom offset (front ++ .instr i :: back) =
      locationsFrom offset front ++
        locationsFrom (offset + (⟨front, false⟩ : Fragment).size + i.size) back := by
  fun_induction locationsFrom offset front with
  | case1 => rfl
  | case2 offset j rest ih =>
    have hsize : (⟨.instr j :: rest, false⟩ : Fragment).size =
        j.size + (⟨rest, false⟩ : Fragment).size := rfl
    rw [List.cons_append, locationsFrom, ih, hsize, Nat.add_assoc offset]
  | case3 offset p q rest ih => exact ih
  | case4 offset p rest hrest ih =>
    rw [List.cons_append, locationsFrom, ih]
    · rfl
    · intro q tail htail
      cases rest with
      | nil => cases htail
      | cons item rest =>
        cases htail
        exact hrest _ _ rfl

theorem getLast?_locationsFrom (offset : Nat) (items : List Item) (b : Bool) :
    (locationsFrom offset items).getLast?.map (fun l => (l.line, l.column)) =
      (⟨items, b⟩ : Fragment).marks.getLast?.map fun p => (p.lineNumber, p.columnNumber) := by
  fun_induction locationsFrom offset items with
  | case1 => rfl
  | case2 offset i rest ih => exact ih
  | case3 offset p q rest ih => exact ih
  | case4 offset p rest _ ih =>
    have hmarks : (⟨.mark p :: rest, b⟩ : Fragment).marks =
        p :: (⟨rest, b⟩ : Fragment).marks := rfl
    rw [hmarks, List.getLast?_cons, List.getLast?_cons]
    -- The mark in front counts only if none follows.
    cases hl : (locationsFrom offset rest).getLast? <;>
      cases hm : (⟨rest, b⟩ : Fragment).marks.getLast? <;> rw [hl, hm] at ih
    · rfl
    · cases ih
    · cases ih
    · exact ih

/-- The locations up to an instruction are those of the marks before it. -/
theorem takeWhile_locations {f front : Fragment} {i : Instruction} {back : List Item}
    (hf : f.items = front.items ++ .instr i :: back) :
    (f.locations.takeWhile fun l => l.offset ≤ (front.size : Int)) =
      locationsFrom 0 front.items := by
  have hsize : (⟨front.items, false⟩ : Fragment).size = front.size := rfl
  have hbefore : ∀ l ∈ locationsFrom 0 front.items, l.offset ≤ (front.size : Int) := by
    intro l hl
    have hle := ((locationsFrom_spec 0 front.items false).2 l hl).1.2
    omega
  have hbehind : ∀ l ∈ locationsFrom (0 + front.size + i.size) back,
      (front.size : Int) < l.offset := by
    intro l hl
    have hle := (locationsFrom_sorted (0 + front.size + i.size) back).2 l hl
    have hpos := i.size_pos
    omega
  rw [locations, hf, locationsFrom_split, hsize,
    List.takeWhile_append_of_pos fun l hl => decide_eq_true (hbefore l hl)]
  cases hlocations : locationsFrom (0 + front.size + i.size) back with
  | nil => simp
  | cons l ls =>
    have hlt := hbehind l (hlocations ▸ List.mem_cons_self)
    rw [List.takeWhile_cons_of_neg (by simpa using hlt), List.append_nil]

end Fragment

/-- The place `p` is found for an offset of the code. -/
def Function.LocatedAt (g : Function) (offset : Int) (p : Position) : Prop :=
  ∃ l, g.locationFor offset = some l ∧ l.line = p.lineNumber ∧ l.column = p.columnNumber

theorem Function.LocatedAt.iff_eq {g : Function} {offset : Int} {p : Position}
    (h : g.LocatedAt offset p) (q : Position) :
    g.LocatedAt offset q ↔ q.line = p.line ∧ q.column = p.column := by
  obtain ⟨l, hl, hline, hcolumn⟩ := h
  unfold Position.lineNumber at hline
  unfold Position.columnNumber at hcolumn
  constructor
  · rintro ⟨l', hl', hline', hcolumn'⟩
    cases hl.symm.trans hl'
    unfold Position.lineNumber at hline'
    unfold Position.columnNumber at hcolumn'
    omega
  · rintro ⟨hq, hq'⟩
    exact ⟨l, hl, by unfold Position.lineNumber; omega, by unfold Position.columnNumber; omega⟩

/-- For an instruction the last place is found that is marked before it. -/
theorem Function.locatedAt {g : Function} {f front : Fragment} {i : Instruction}
    {back : List Item} {p : Position} (hg : g.locations = f.locations)
    (hf : f.items = front.items ++ .instr i :: back) (hp : front.marks.getLast? = some p) :
    g.LocatedAt front.size p := by
  have hfound : g.locationFor front.size = (Fragment.locationsFrom 0 front.items).getLast? := by
    rw [locationFor, hg, Fragment.takeWhile_locations hf]
  have hlast := Fragment.getLast?_locationsFrom 0 front.items front.landing
  rw [show (⟨front.items, front.landing⟩ : Fragment).marks = front.marks from rfl, hp] at hlast
  obtain ⟨l, hl, hplace⟩ := Option.map_eq_some_iff.1 hlast
  exact ⟨l, hfound.trans hl, congrArg Prod.fst hplace, congrArg Prod.snd hplace⟩

/-! ### The order of places -/

/-- The place `p` stands before `q` in the lines of a text. -/
def Position.Before (p q : Position) : Prop :=
  p.line < q.line ∨ p.line = q.line ∧ p.column < q.column

namespace Position.Before

variable {p q r : Position}

theorem after (p : Position) (g : Text.Glyph) : p.Before (p.after g) := by
  unfold Before Position.after
  split <;> dsimp only <;> omega

theorem trans (h : p.Before q) (h' : q.Before r) : p.Before r := by
  unfold Before at *
  omega

theorem ne (h : p.Before q) : ¬ (p.line = q.line ∧ p.column = q.column) := by
  unfold Before at h
  omega

/-- Places one behind the other are told apart by their lines and columns. -/
theorem eq_of_mem {ps : List Position} (h : ps.Pairwise Before) (hp : p ∈ ps) (hq : q ∈ ps)
    (hsame : p.line = q.line ∧ p.column = q.column) : p = q := by
  have hforward : ps.Pairwise fun a b => a.line = b.line ∧ a.column = b.column → a = b :=
    h.imp fun hlt hsame => absurd hsame hlt.ne
  have hbackward : ps.Pairwise fun a b => b.line = a.line ∧ b.column = a.column → b = a :=
    h.imp fun hlt hsame => absurd ⟨hsame.1.symm, hsame.2.symm⟩ hlt.ne
  exact hforward.forall_of_forall_of_flip (fun _ _ _ => rfl) hbackward hp hq hsame

end Position.Before

namespace Token

open Text (Glyph)

variable {gs rest : List Glyph} {p q : Position}

theorem Ahead.eq_or_before (h : Ahead gs p rest q) : q = p ∨ p.Before q := by
  induction h with
  | here => exact .inl rfl
  | @next g _ q _ ih =>
    rcases ih with rfl | ih
    · exact .inr (.after _ g)
    · exact .inr (ih.trans (.after q g))

theorem Ahead.before (h : Ahead gs p rest q) (hlt : rest.length < gs.length) : p.Before q := by
  cases h with
  | here => exact absurd hlt (Nat.lt_irrefl _)
  | @next g _ q h =>
    rcases h.eq_or_before with rfl | h
    · exact .after _ g
    · exact h.trans (.after q g)

/-- Tokens start one behind the other. -/
theorem scanFrom_ordered (gs : List Glyph) (p : Position) :
    ((scanFrom gs p).list.map start).Pairwise Position.Before ∧
      ∀ s ∈ (scanFrom gs p).list.map start, s = p ∨ p.Before s := by
  fun_induction scanFrom gs p with
  | case1 | case2 => simp
  | case3 gs p g rest q hb t rest' q' ht ts ih =>
    have hblank := (ahead_skipBlank false gs p).eq_or_before
    have htoken := (scanToken_cases ht).1.skip.before (Nat.lt_succ_of_le (length_scanToken ht))
    have hstart : t.start = q := (scanToken_cases ht).2.1
    rw [hb] at hblank
    have hlater : ∀ s ∈ ts.list.map start, q.Before s := fun s hs =>
      (ih.2 s hs).elim (fun heq => heq ▸ htoken) htoken.trans
    rw [List.map_cons, List.pairwise_cons, hstart]
    refine ⟨⟨hlater, ih.1⟩, List.forall_mem_cons.2 ⟨hblank, fun s hs => .inr ?_⟩⟩
    rcases hblank with rfl | hblank
    · exact hlater s hs
    · exact hblank.trans (hlater s hs)

end Token

/-- The parts of all forms stand one behind the other. -/
theorem Program.read_ordered (options : ReadOptions) (source : Bytes) :
    ((read options source).forms.flatMap Expr.places).Pairwise Position.Before :=
  (Token.scanFrom_ordered _ _).1.sublist (read_places options source)

end StackLisp
