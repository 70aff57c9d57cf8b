import StackLisp.Text.Bytes

/-! Texts that are split at a separator. The parts are free of it, and joining such parts with the
separator between them is undone. -/
namespace StackLisp.Text

variable {sep : UInt8}

/-- Texts are split as lists are. -/
theorem split_eq_splitOn (text : Bytes) : split sep text = text.splitOn sep := by
  induction text with
  | nil => rfl
  | cons b text ih =>
    unfold List.splitOn at ih ⊢
    rw [split, ih, List.splitOnP_cons_eq_if_modifyHead]
    by_cases hb : b = sep
    · rw [if_pos hb, if_pos (beq_iff_eq.2 hb)]
    · rw [if_neg hb, if_neg (mt beq_iff_eq.1 hb)]
      cases hsplit : text.splitOnP fun c => c == sep with
      | nil => exact absurd hsplit (List.splitOnP_ne_nil _ text)
      | cons part parts => rfl

theorem split_ne_nil (text : Bytes) : split sep text ≠ [] := by
  rw [split_eq_splitOn]
  exact List.splitOn_ne_nil sep text

theorem split_cons_sep (text : Bytes) : split sep (sep :: text) = [] :: split sep text := by
  rw [split, if_pos rfl]

theorem split_append (front rest : Bytes) :
    split sep (front ++ sep :: rest) = split sep front ++ split sep rest := by
  simp only [split_eq_splitOn, List.splitOn_append_cons_self]

theorem split_join {parts : List Bytes} (hne : parts ≠ []) (h : ∀ part ∈ parts, sep ∉ part) :
    split sep (join [sep] parts) = parts := by
  rw [split_eq_splitOn]
  exact List.splitOn_intercalate sep h hne

theorem not_mem_of_mem_split {text part : Bytes} (h : part ∈ split sep text) : sep ∉ part := by
  induction text generalizing part with
  | nil =>
    rw [List.mem_singleton.1 h]
    exact List.not_mem_nil
  | cons b text ih =>
    rw [split] at h
    by_cases hb : b = sep
    · rw [if_pos hb] at h
      rcases List.mem_cons.1 h with rfl | h
      · exact List.not_mem_nil
      · exact ih h
    · rw [if_neg hb] at h
      cases htext : split sep text with
      | nil => exact absurd htext (split_ne_nil text)
      | cons first parts =>
        rw [htext] at h ih
        rcases List.mem_cons.1 h with rfl | h
        · exact List.not_mem_cons_of_ne_of_not_mem (Ne.symm hb) (ih List.mem_cons_self)
        · exact ih (List.mem_cons_of_mem _ h)

end StackLisp.Text
