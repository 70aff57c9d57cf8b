import StackLisp.Fault
import StackLisp.Proofs.Carets
import StackLisp.Proofs.Separators
import StackLisp.Refusal

/-! Lines that are quoted from a source. The line that is reached by passing one line end after the
other is the one that a split of the whole text gives, and it is what stands between two line
ends. -/
namespace StackLisp

namespace Text

/-- The line stands behind the newline with the number `n`, or at the start of the text if `n` is
zero, and reaches to the next newline or to the end. -/
def IsLine (n : Nat) (text line : Bytes) : Prop :=
  ∃ front back, text = front ++ line ++ back ∧ front.count newline = n ∧
    (∀ b ∈ front.getLast?, b = newline) ∧ newline ∉ line ∧ ∀ b ∈ back.head?, b = newline

/-- Splitting a text gives its lines. -/
theorem getD_split (n : Nat) (text : Bytes) :
    (split newline text)[n]?.getD [] = lineAt n text := by
  induction text generalizing n with
  | nil => cases n <;> rfl
  | cons b text ih =>
    by_cases hb : b = newline
    · rw [hb, split_cons_sep]
      cases n with
      | zero => rfl
      | succ n => exact ih n
    · have hne : split newline text ≠ [] := split_ne_nil text
      obtain ⟨part, parts, hsplit⟩ := List.exists_cons_of_ne_nil hne
      rw [hsplit] at ih
      rw [split, if_neg hb, hsplit]
      cases n with
      | zero =>
        have hpart : part = lineAt 0 text := ih 0
        show b :: part = (b :: text).takeWhile (· ≠ newline)
        rw [hpart, List.takeWhile_cons_of_pos (by simpa using hb), lineAt]
      | succ n => exact (ih (n + 1)).trans (lineAt_cons hb n text).symm

theorem lineAt_eq_nil {n : Nat} {text : Bytes} (h : text.count newline < n) :
    lineAt n text = [] := by
  induction text generalizing n with
  | nil =>
    cases n with
    | zero => cases h
    | succ n => rfl
  | cons b text ih =>
    obtain ⟨n, rfl⟩ := Nat.exists_eq_succ_of_ne_zero (Nat.ne_zero_of_lt h)
    by_cases hb : b = newline
    · rw [hb, List.count_cons_self] at h
      rw [hb]
      exact ih (Nat.lt_of_succ_lt_succ h)
    · rw [List.count_cons_of_ne hb] at h
      exact (lineAt_cons hb n text).trans (ih h)

/-- A text with enough line ends can be cut behind each of them. -/
theorem exists_front {n : Nat} {text : Bytes} (h : n ≤ text.count newline) :
    ∃ front back, text = front ++ back ∧ front.count newline = n ∧
      ∀ b ∈ front.getLast?, b = newline := by
  induction n with
  | zero => exact ⟨[], text, rfl, rfl, by simp⟩
  | succ n ih =>
    obtain ⟨front, back, rfl, hcount, -⟩ := ih (Nat.le_of_succ_le h)
    rw [List.count_append, hcount] at h
    have hmem : newline ∈ back := List.count_pos_iff.1 (by omega)
    obtain ⟨middle, rest, rfl, hmiddle⟩ := List.eq_append_cons_of_mem hmem
    refine ⟨front ++ middle ++ [newline], rest, by simp, ?_, by simp⟩
    rw [List.count_append, List.count_append, hcount, List.count_eq_zero.2 hmiddle,
      List.count_singleton_self]

theorem lineAt_of_front {front back : Bytes} (h : ∀ b ∈ front.getLast?, b = newline) :
    lineAt (front.count newline) (front ++ back) = back.takeWhile (· ≠ newline) := by
  have hfront : front.rtakeWhile (· ≠ 10) = [] := by
    cases front using List.reverseRecOn with
    | nil => rfl
    | append_singleton front b =>
      have hb : b = newline := h b (by simp)
      exact List.rtakeWhile_concat_neg _ _ _ (by simp [hb, newline])
  exact (lineAt_count front back).trans (by rw [hfront]; rfl)

/-- A text has a line with the number `n` exactly if it has as many line ends, and then this is the
line at `n`. -/
theorem isLine_iff {n : Nat} {text line : Bytes} :
    IsLine n text line ↔ n ≤ text.count newline ∧ lineAt n text = line := by
  constructor
  · rintro ⟨front, back, rfl, rfl, hfront, hline, hback⟩
    rw [List.append_assoc, lineAt_of_front hfront, List.count_append]
    have hall : ∀ b ∈ line, decide (b ≠ newline) = true := fun b hb =>
      decide_eq_true fun heq => hline (heq ▸ hb)
    refine ⟨Nat.le_add_right _ _, ?_⟩
    rw [List.takeWhile_append_of_pos hall]
    cases back with
    | nil => simp
    | cons b back =>
      have hb : b = newline := hback b rfl
      rw [List.takeWhile_cons_of_neg (by simp [hb]), List.append_nil]
  · rintro ⟨hn, rfl⟩
    obtain ⟨front, back, rfl, rfl, hfront⟩ := exists_front hn
    rw [lineAt_of_front hfront]
    refine ⟨front, back.dropWhile (· ≠ newline), ?_, rfl, hfront, fun hmem => ?_, fun b hb => ?_⟩
    · rw [List.append_assoc, List.takeWhile_append_dropWhile]
    · simpa using List.mem_takeWhile_imp hmem
    · have hstop := List.head?_dropWhile_not (· ≠ newline) back
      rw [Option.mem_def.1 hb] at hstop
      simpa using hstop

end Text

open Text (lineAt IsLine newline)

theorem CompileOptions.sourceLine_eq (options : CompileOptions) (n : Nat) :
    options.sourceLine n = lineAt n options.source := by
  have hn : ¬ (n : Int) < 0 := by omega
  unfold sourceLine
  by_cases hsource : options.source = []
  · rw [if_pos (.inl hsource), hsource]
    cases n <;> rfl
  · rw [if_neg (not_or.2 ⟨hsource, hn⟩)]
    exact Text.getD_split n options.source

/-- Reports on a text that cannot be read and on one that cannot be compiled quote the same line of
a source. It is what stands between the newline with the number of the line and the next one, or the
end, and nothing when there are not that many lines. -/
theorem CompileOptions.sourceLine_quotes (options : CompileOptions) (n : Nat) :
    options.sourceLine n = lineAt n options.source ∧
    (∀ line, IsLine n options.source line ↔
      n ≤ options.source.count newline ∧ lineAt n options.source = line) ∧
    (options.source.count newline < n → lineAt n options.source = []) ∧
    ∀ (f : LocatedFault) (r : LocatedRefusal) (file : Bytes), f.start.line = n → r.pos.line = n →
      (f.diagnostic options.source file).sourceLine = (r.diagnostic options).sourceLine := by
  refine ⟨sourceLine_eq options n, fun line => Text.isLine_iff, Text.lineAt_eq_nil, ?_⟩
  intro f r file hf hr
  show lineAt f.start.line.toNat options.source = options.sourceLine r.pos.line
  rw [hf, hr, sourceLine_eq, Int.toNat_natCast]

/-- A source that ends with a newline, so that its last line is empty. -/
def CompileOptions.ended : CompileOptions := { source := Text.lit "(f\n\nx)\n" }

theorem CompileOptions.sourceLine_quotes_ended :
    IsLine 2 ended.source (Text.lit "x)") ∧ IsLine 3 ended.source [] ∧
    ¬ IsLine 4 ended.source [] ∧ lineAt 4 ended.source = [] ∧
    (LocatedFault.diagnostic ended.source [] ⟨.unexpectedClose, { line := 2 }, {}⟩).sourceLine =
      (LocatedRefusal.diagnostic ended ⟨.forwardReference [120], { line := 2 }⟩).sourceLine := by
  have hcount : ended.source.count newline = 3 := by decide +kernel
  have hsecond : lineAt 2 ended.source = Text.lit "x)" := by decide +kernel
  have hthird : lineAt 3 ended.source = [] := by decide +kernel
  obtain ⟨-, hline₂, -, hquoted⟩ := sourceLine_quotes ended 2
  obtain ⟨-, hline₃, -⟩ := sourceLine_quotes ended 3
  obtain ⟨-, hline₄, hnone, -⟩ := sourceLine_quotes ended 4
  refine ⟨(hline₂ _).2 ⟨by omega, hsecond⟩, (hline₃ _).2 ⟨by omega, hthird⟩, fun h => ?_,
    hnone (by omega), hquoted _ _ _ rfl rfl⟩
  have hle := ((hline₄ _).1 h).1
  omega

end StackLisp
