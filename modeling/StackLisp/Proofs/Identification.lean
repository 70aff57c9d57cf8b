import Mathlib.Data.List.Nodup
import StackLisp.Proofs.Keys

/-! What units with the same key have in common. The text whose digest is the key tells the sources
and the settings, except where the sources end and the settings begin. -/
namespace StackLisp.Cache

open Text (lit)

/-- The settings in the order of their names. -/
def inOrder (settings : List (Bytes × Bytes)) : List (Bytes × Bytes) :=
  settings.mergeSort fun a b => a.1 ≤ b.1

/-- What is written into a key behind the version: sources and settings alike are a name and a
text. -/
def entries (sources : List SourceFile) (settings : List (Bytes × Bytes)) : List (Bytes × Bytes) :=
  sources.map (fun s => (s.filename, s.text)) ++ inOrder settings

theorem parts_eq (sources : List SourceFile) (settings : List (Bytes × Bytes)) :
    parts sources settings = Text.decimalInt formatVersion ::
      (entries sources settings).flatMap fun entry => [entry.1, entry.2] := by
  rw [parts, entries, List.flatMap_append, List.flatMap_map]
  rfl

/-- The entries are all that a key tells. -/
theorem keyText_eq_iff {xs ys : List SourceFile} {s t : List (Bytes × Bytes)} :
    keyText xs s = keyText ys t ↔ entries xs s = entries ys t := by
  rw [keyText_eq, keyText_eq, parts_eq, parts_eq]
  constructor
  · exact fun h => flatMap_pair_inj (List.cons.inj (flatMap_chunk_inj h)).2
  · exact fun h => by rw [h]

theorem inOrder_perm (settings : List (Bytes × Bytes)) : (inOrder settings).Perm settings :=
  List.mergeSort_perm _ _

/-- Settings of different names have one order only. -/
theorem inOrder_eq_iff {s t : List (Bytes × Bytes)} (hs : (s.map Prod.fst).Nodup) :
    inOrder s = inOrder t ↔ s.Perm t := by
  constructor
  · intro h
    exact (inOrder_perm s).symm.trans (h ▸ inOrder_perm t)
  · intro hperm
    have hsame : (inOrder s).Perm (inOrder t) :=
      ((inOrder_perm s).trans hperm).trans (inOrder_perm t).symm
    refine hsame.eq_of_pairwise (fun a b ha hb hab hba => ?_) (Text.pairwise_mergeSort Prod.fst s)
      (Text.pairwise_mergeSort Prod.fst t)
    have hb' : b ∈ s := (inOrder_perm s).subset (hsame.symm.subset hb)
    exact List.inj_on_of_nodup_map hs ((inOrder_perm s).subset ha) hb' (List.le_antisymm hab hba)

theorem length_entries (sources : List SourceFile) (settings : List (Bytes × Bytes)) :
    (entries sources settings).length = sources.length + settings.length := by
  rw [entries, List.length_append, List.length_map, (inOrder_perm settings).length_eq]

/-- If the entries agree, the sources that one of them has more are the first settings of the
other. -/
theorem entries_eq_iff {xs ys : List SourceFile} {s t : List (Bytes × Bytes)}
    (hle : xs.length ≤ ys.length) :
    entries xs s = entries ys t ↔ ∃ moved, ys = xs ++ moved ∧ inOrder s = entries moved t := by
  constructor
  · intro h
    rcases List.append_eq_append_iff.1 h with ⟨extra, hys, hs⟩ | ⟨extra, hxs, ht⟩
    · obtain ⟨front, moved, rfl, hfront, rfl⟩ := List.map_eq_append_iff.1 hys
      cases map_pair_inj hfront
      exact ⟨moved, rfl, hs⟩
    · have hnone : extra = [] := by
        have hmore := congrArg List.length hxs
        rw [List.length_append, List.length_map, List.length_map] at hmore
        exact List.length_eq_zero_iff.1 (by omega)
      subst hnone
      rw [List.append_nil] at hxs
      exact ⟨[], by rw [map_pair_inj hxs, List.append_nil], ht.symm⟩
  · rintro ⟨moved, rfl, hs⟩
    rw [entries, hs, entries, entries, List.map_append, List.append_assoc]

/-- Texts of keys agree exactly if the longer list of sources continues the other with the first of
the other's settings, and nothing else differs. So a key determines the sources and the settings if
the number of either is known, and the order in which settings are given does not matter. -/
theorem keyText_determines {xs ys : List SourceFile} {s t : List (Bytes × Bytes)}
    (hs : (s.map Prod.fst).Nodup) :
    (xs.length ≤ ys.length → (keyText xs s = keyText ys t ↔
      ∃ moved, ys = xs ++ moved ∧ inOrder s = entries moved t)) ∧
    (xs.length = ys.length ∨ s.length = t.length → (keyText xs s = keyText ys t ↔
      xs = ys ∧ s.Perm t)) := by
  refine ⟨fun hle => keyText_eq_iff.trans (entries_eq_iff hle), fun hnumber => ⟨fun h => ?_, ?_⟩⟩
  · have hentries := keyText_eq_iff.1 h
    have hcount : xs.length = ys.length := by
      have hlength := congrArg List.length hentries
      rw [length_entries, length_entries] at hlength
      omega
    obtain ⟨moved, hys, hmoved⟩ := (entries_eq_iff hcount.le).1 hentries
    have hnone : moved = [] := by
      have hlength := congrArg List.length hys
      rw [List.length_append] at hlength
      exact List.length_eq_zero_iff.1 (by omega)
    subst hnone
    rw [List.append_nil] at hys
    exact ⟨hys.symm, (inOrder_eq_iff hs).1 hmoved⟩
  · rintro ⟨rfl, hperm⟩
    rw [keyText_eq_iff, entries, entries, (inOrder_eq_iff hs).2 hperm]

/-- The same settings in another order. -/
theorem keyText_determines_reordered :
    ([(lit "late", lit "true"), (lit "globals", lit "x")].map Prod.fst).Nodup ∧
      keyText [⟨lit "m", lit "x"⟩] [(lit "late", lit "true"), (lit "globals", lit "x")] =
        keyText [⟨lit "m", lit "x"⟩] [(lit "globals", lit "x"), (lit "late", lit "true")] := by
  have hnames : ([(lit "late", lit "true"), (lit "globals", lit "x")].map Prod.fst).Nodup := by
    decide
  exact ⟨hnames, ((keyText_determines hnames).2 (.inl rfl)).2 ⟨rfl, .swap _ _ _⟩⟩

/-- A source and a setting of the same name and text are not told apart. -/
theorem keyText_source_as_setting :
    keyText [⟨lit "a", lit "b"⟩] [] = keyText [] [(lit "a", lit "b")] ∧
      key [⟨lit "a", lit "b"⟩] [] = key [] [(lit "a", lit "b")] := by
  have htext : keyText [⟨lit "a", lit "b"⟩] [] = keyText [] [(lit "a", lit "b")] := by
    simp [keyText]
  exact ⟨htext, by rw [key, htext, key]⟩

end StackLisp.Cache
