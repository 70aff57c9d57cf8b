import Mathlib.Data.List.DropRight
import StackLisp.Proofs.Decoding
import StackLisp.Proofs.Spelling

/-! Line ends and other characters of one byte. No such byte is part of a longer character, so lines
are the same in the bytes of a text and in its characters. -/
namespace StackLisp.Text

theorem eq_toNat_of_ofNat {n : Nat} {c : Char} (h : Char.ofNat n = c) (hc : c ≠ '\x00') :
    n = c.toNat := by
  subst h
  by_cases hvalid : n.isValidChar
  · rw [Char.ofNat, dif_pos hvalid]
    rfl
  · exact absurd (dif_neg hvalid) hc

/-- Lead bytes and the bounds of what follows leave no room for the characters of one byte. -/
theorem payload_of_continuation {b lo hi : UInt8} {k : Nat}
    (h : continuation b = some (k, lo, hi)) : hi ≤ 0xBF ∧
      (k = 1 ∧ 2 ≤ b.toNat % 32 ∨ k = 2 ∧ (1 ≤ b.toNat % 16 ∨ lo = 0xA0) ∨
        k = 3 ∧ (1 ≤ b.toNat % 8 ∨ lo = 0x90)) := by
  have hall : ∀ n < 256, (continuation (UInt8.ofNat n)).all (fun bounds => bounds.2.2 ≤ 0xBF ∧
      (bounds.1 = 1 ∧ 2 ≤ n % 32 ∨ bounds.1 = 2 ∧ (1 ≤ n % 16 ∨ bounds.2.1 = 0xA0) ∨
        bounds.1 = 3 ∧ (1 ≤ n % 8 ∨ bounds.2.1 = 0x90))) = true := by
    decide +kernel
  have hb := hall b.toNat b.toNat_lt
  rw [UInt8.ofNat_toNat, h] at hb
  simpa using hb

theorem le_payload {c lo hi : UInt8} (hlow : lo ≤ c) (hhigh : c ≤ hi) (hi_le : hi ≤ 0xBF) {n : Nat}
    (hlo : lo.toNat = 0x80 + n) : n ≤ payload c := by
  have h₁ := UInt8.le_iff_toNat_le.1 hlow
  have h₂ : c.toNat ≤ 0xBF := UInt8.le_iff_toNat_le.1 (UInt8.le_trans hhigh hi_le)
  unfold payload
  omega

/-- A character that starts with another byte is none of these characters. -/
theorem char_firstGlyph_ne {b : UInt8} {rest : Bytes} {c : Char} (hb : ¬ b < 0x80)
    (hc : c ≠ '\x00') (hascii : c.toNat < 0x80) : (firstGlyph b rest).char ≠ c := by
  have bad : replacement ≠ c := by
    rintro rfl
    exact absurd hascii (by decide)
  have high {n : Nat} (hn : 0x80 ≤ n) : Char.ofNat n ≠ c := by
    intro h
    have hsame := eq_toNat_of_ofNat h hc
    omega
  unfold firstGlyph
  rw [if_neg hb]
  split
  · next hcont =>
    have hlead := payload_of_continuation hcont
    split
    · exact high (by omega)
    · exact bad
  · next hcont =>
    obtain ⟨hi_le, hlead⟩ := payload_of_continuation hcont
    split
    · next hbounds =>
      -- the first lead byte of its kind has no bits of its own; there the next byte is bounded
      rcases hlead with ⟨hk, -⟩ | ⟨-, hlead | rfl⟩ | ⟨hk, -⟩
      · cases hk
      · exact high (by omega)
      · have hpayload : 32 ≤ payload _ := le_payload hbounds.1 hbounds.2.1 hi_le rfl
        exact high (by omega)
      · cases hk
    · exact bad
  · next hcont =>
    obtain ⟨hi_le, hlead⟩ := payload_of_continuation hcont
    split
    · next hbounds =>
      rcases hlead with ⟨hk, -⟩ | ⟨hk, -⟩ | ⟨-, hlead | rfl⟩
      · cases hk
      · cases hk
      · exact high (by omega)
      · have hpayload : 16 ≤ payload _ := le_payload hbounds.1 hbounds.2.1 hi_le rfl
        exact high (by omega)
    · exact bad
  · exact bad

/-- The character is the one that its bytes are decoded to. -/
def Glyph.Decoded (g : Glyph) : Prop := glyphs g.bytes = [g]

theorem decoded_of_mem {text : Bytes} {g : Glyph} (h : g ∈ glyphs text) : g.Decoded := by
  obtain ⟨front, rest, hsplit⟩ := List.append_of_mem h
  have hpart : glyphs text = front ++ [g] ++ rest := by rw [hsplit, List.append_assoc]; rfl
  have hbytes := glyphs_flatMap_bytes hpart
  rwa [List.flatMap_singleton] at hbytes

namespace Glyph.Decoded

variable {g : Glyph}

theorem eq_firstGlyph (h : g.Decoded) : ∃ b rest, g = firstGlyph b rest := by
  unfold Decoded at h
  cases hbytes : g.bytes with
  | nil =>
    rw [hbytes] at h
    cases h
  | cons b rest =>
    rw [hbytes, glyphs, glyphsFrom] at h
    exact ⟨b, rest, (List.cons.inj h).1.symm⟩

theorem bytes_ne_nil (h : g.Decoded) : g.bytes ≠ [] := by
  obtain ⟨b, rest, rfl⟩ := h.eq_firstGlyph
  exact bytes_firstGlyph_ne_nil b rest

theorem bytes_of_ascii (h : g.Decoded) {c : Char} (hchar : g.char = c) (hc : c ≠ '\x00')
    (hascii : c.toNat < 0x80) : g.bytes = [c.toNat.toUInt8] := by
  obtain ⟨b, rest, rfl⟩ := h.eq_firstGlyph
  by_cases hb : b < 0x80
  · rw [firstGlyph_ascii hb] at hchar ⊢
    rw [← eq_toNat_of_ofNat hchar hc]
    simp
  · exact absurd hchar (char_firstGlyph_ne hb hc hascii)

theorem not_mem_of_ascii (h : g.Decoded) {a : UInt8} (ha : a < 0x80)
    (hchar : g.char ≠ Char.ofNat a.toNat) : a ∉ g.bytes := by
  obtain ⟨b, rest, rfl⟩ := h.eq_firstGlyph
  intro hmem
  have hlead : a ≠ b := by
    rintro rfl
    exact hchar (by rw [firstGlyph_ascii ha])
  cases hbad : (firstGlyph b rest).isBad with
  | true =>
    rw [firstGlyph_of_isBad hbad] at hmem
    exact hlead (List.mem_singleton.1 hmem)
  | false =>
    obtain ⟨tail, left, -, hbytes⟩ := firstGlyph_split b rest
    have hencoded := encoded_firstGlyph hbad
    rw [hbytes] at hencoded hmem
    rcases List.mem_cons.1 hmem with heq | htail
    · exact hlead heq
    · exact not_lt_of_encoded hencoded htail ha

theorem bytes_of_lineEnd (h : g.Decoded) (hline : g.char = '\n') : g.bytes = [10] :=
  h.bytes_of_ascii hline (by decide) (by decide)

theorem not_mem_of_not_lineEnd (h : g.Decoded) (hline : g.char ≠ '\n') : 10 ∉ g.bytes :=
  h.not_mem_of_ascii (by decide) hline

theorem chars_bytes (h : g.Decoded) : chars g.bytes = [g.char] := by
  rw [chars, h, List.map_singleton]

end Glyph.Decoded

/-- The characters behind the last line end have the bytes behind the last line end. -/
theorem rtakeWhile_flatMap_bytes {gs : List Glyph} (h : ∀ g ∈ gs, g.Decoded) :
    (gs.flatMap Glyph.bytes).rtakeWhile (· ≠ 10) =
      (gs.rtakeWhile fun g => g.char ≠ '\n').flatMap Glyph.bytes := by
  induction gs using List.reverseRecOn with
  | nil => rfl
  | append_singleton gs g ih =>
    obtain ⟨hgs, hg⟩ := List.forall_mem_append.1 h
    have hg : g.Decoded := hg g (List.mem_singleton_self g)
    rw [List.flatMap_append, List.flatMap_singleton]
    by_cases hline : g.char = '\n'
    · rw [hg.bytes_of_lineEnd hline, List.rtakeWhile_concat_neg _ _ _ (by decide),
        List.rtakeWhile_concat_neg _ _ _ (by simpa using hline)]
      rfl
    · have hall : ∀ b ∈ g.bytes.reverse, decide (b ≠ 10) = true := by
        intro b hb
        refine decide_eq_true fun heq => hg.not_mem_of_not_lineEnd hline ?_
        rw [← heq]
        exact List.mem_reverse.1 hb
      rw [List.rtakeWhile_concat_pos _ _ _ (by simpa using hline), List.flatMap_append,
        List.flatMap_singleton, ← ih hgs, List.rtakeWhile, List.rtakeWhile, List.reverse_append,
        List.takeWhile_append_of_pos hall, List.reverse_append, List.reverse_reverse]

theorem count_flatMap_bytes {gs : List Glyph} (h : ∀ g ∈ gs, g.Decoded) :
    (gs.flatMap Glyph.bytes).count 10 = gs.countP fun g => g.char = '\n' := by
  induction gs with
  | nil => rfl
  | cons g gs ih =>
    obtain ⟨hg, hgs⟩ := List.forall_mem_cons.1 h
    rw [List.flatMap_cons, List.count_append, ih hgs, List.countP_cons]
    by_cases hline : g.char = '\n'
    · rw [hg.bytes_of_lineEnd hline, if_pos (decide_eq_true hline), Nat.add_comm]
      rfl
    · rw [List.count_eq_zero_of_not_mem (hg.not_mem_of_not_lineEnd hline),
        if_neg (by simpa using hline), Nat.zero_add, Nat.add_zero]

end StackLisp.Text
