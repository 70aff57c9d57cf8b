import StackLisp.Build
import StackLisp.Proofs.Numerals

/-! What a key tells. The text whose digest is the key of a unit determines the files and the
settings that are written into it. -/
namespace StackLisp

namespace Text

theorem digitsValue_foldl {ds : List Nat} (h : Decimal.Digits ds) (n : Nat) :
    (Decimal.digitBytes ds).foldl (fun n d => 10 * n + (d.toNat - 48)) n =
      ds.foldl (fun n d => 10 * n + d) n := by
  induction ds generalizing n with
  | nil => rfl
  | cons d ds ih =>
    obtain ⟨hd, hds⟩ := List.forall_mem_cons.1 h
    have hvalue : (48 + d).toUInt8.toNat - 48 = d := by
      have hall : ∀ d < 10, (48 + d).toUInt8.toNat - 48 = d := by decide
      exact hall d hd
    rw [Decimal.digitBytes, List.map_cons, List.foldl_cons, List.foldl_cons, hvalue]
    exact ih hds _

theorem digitsValue_decimal (n : Nat) : digitsValue (decimal n) = n := by
  rw [digitsValue, Decimal.decimal_eq, digitsValue_foldl (Decimal.digits_digitsOf n)]
  exact Decimal.whole_digitsOf n

theorem decimal_inj {m n : Nat} (h : decimal m = decimal n) : m = n := by
  rw [← digitsValue_decimal m, h, digitsValue_decimal]

theorem hexValue?_hexDigit {n : Nat} (h : n < 16) : hexValue? (hexDigit n) = some n := by
  have hall : ∀ n < 16, hexValue? (hexDigit n) = some n := by decide
  exact hall n h

theorem unhex?_hex (bs : Bytes) : unhex? (hex bs) = some bs := by
  induction bs with
  | nil => rfl
  | cons b bs ih =>
    have hhigh := hexValue?_hexDigit (Nat.div_lt_of_lt_mul b.toNat_lt : b.toNat / 16 < 16)
    have hlow := hexValue?_hexDigit (Nat.mod_lt b.toNat (by decide : 0 < 16))
    have hbyte : (16 * (b.toNat / 16) + b.toNat % 16).toUInt8 = b := by
      rw [Nat.div_add_mod]
      exact UInt8.ofNat_toNat
    rw [hex, List.flatMap_cons, ← hex, hexByte, List.cons_append, List.singleton_append, unhex?,
      hhigh, hlow, ih, Option.bind_eq_bind, Option.bind_some, Option.bind_eq_bind,
      Option.bind_some, hbyte]
    rfl

theorem hex_inj {bs cs : Bytes} (h : hex bs = hex cs) : bs = cs := by
  have hread := unhex?_hex bs
  rw [h, unhex?_hex] at hread
  exact (Option.some.inj hread).symm

@[simp] theorem mem_dedupAdjacent {n : Bytes} {names : List Bytes} :
    n ∈ dedupAdjacent names ↔ n ∈ names := by
  fun_induction dedupAdjacent names with
  | case1 a rest ih => simp [ih]
  | case2 a b rest hne ih =>
    rw [List.mem_cons, ih]
    exact List.mem_cons.symm
  | case3 => rfl

theorem pairwise_mergeSort {α : Type} (f : α → Bytes) (xs : List α) :
    (xs.mergeSort fun a b => f a ≤ f b).Pairwise fun a b => f a ≤ f b := by
  have htrans (a b c : α) (hab : decide (f a ≤ f b) = true) (hbc : decide (f b ≤ f c) = true) :
      decide (f a ≤ f c) = true :=
    decide_eq_true (List.le_trans (of_decide_eq_true hab) (of_decide_eq_true hbc))
  have htotal (a b : α) : (decide (f a ≤ f b) || decide (f b ≤ f a)) = true := by
    simpa using List.le_total (f a) (f b)
  exact (List.pairwise_mergeSort htrans htotal xs).imp of_decide_eq_true

/-- Texts have one order only. -/
theorem sort_eq_of_perm {xs ys : List Bytes} (hperm : xs.Perm ys) (hsorted : ys.Pairwise (· ≤ ·)) :
    sort xs = ys := by
  have hsame := (List.mergeSort_perm xs fun a b => decide (a ≤ b)).trans hperm
  exact hsame.eq_of_pairwise (fun a b _ _ hab hba => List.le_antisymm hab hba)
    (pairwise_mergeSort id xs) hsorted

/-- A text that can be told from its neighbours in a list that is separated by commas. -/
def Separable (text : Bytes) : Prop := text ≠ [] ∧ 44 ∉ text

instance (text : Bytes) : Decidable (Separable text) :=
  inferInstanceAs (Decidable (text ≠ [] ∧ 44 ∉ text))

theorem join_singleton (name : Bytes) : join (lit ",") [name] = name :=
  List.intercalate_singleton

theorem join_cons_cons (name next : Bytes) (names : List Bytes) :
    join (lit ",") (name :: next :: names) = name ++ 44 :: join (lit ",") (next :: names) := by
  rw [join, List.intercalate_cons_cons, List.append_assoc]
  rfl

theorem takeWhile_join {name : Bytes} (hname : Separable name) (names : List Bytes) :
    (join (lit ",") (name :: names)).takeWhile (· ≠ 44) = name := by
  have hall : ∀ b ∈ name, decide (b ≠ 44) = true := by
    intro b hb
    exact decide_eq_true fun heq => hname.2 (heq ▸ hb)
  cases names with
  | nil =>
    have halone : (name ++ []).takeWhile (· ≠ 44) = name ++ [].takeWhile (· ≠ 44) :=
      List.takeWhile_append_of_pos hall
    rw [List.takeWhile_nil, List.append_nil] at halone
    rwa [join_singleton]
  | cons next names =>
    rw [join_cons_cons, List.takeWhile_append_of_pos hall,
      List.takeWhile_cons_of_neg (by decide), List.append_nil]

/-- Lists of such texts can be told apart when they are joined. -/
theorem join_inj {xs ys : List Bytes} (hxs : ∀ x ∈ xs, Separable x) (hys : ∀ y ∈ ys, Separable y)
    (h : join (lit ",") xs = join (lit ",") ys) : xs = ys := by
  induction xs generalizing ys with
  | nil =>
    cases ys with
    | nil => rfl
    | cons y ys =>
      have hy := (List.forall_mem_cons.1 hys).1
      have hempty := takeWhile_join hy ys
      rw [← h] at hempty
      exact absurd hempty.symm hy.1
  | cons x xs ih =>
    obtain ⟨hx, hmore⟩ := List.forall_mem_cons.1 hxs
    cases ys with
    | nil =>
      have hempty := takeWhile_join hx xs
      rw [h] at hempty
      exact absurd hempty.symm hx.1
    | cons y ys =>
      obtain ⟨hy, hothers⟩ := List.forall_mem_cons.1 hys
      have hfirst : x = y := by rw [← takeWhile_join hx xs, h, takeWhile_join hy]
      subst hfirst
      -- what is left is longer than the first name exactly if there is a second
      cases xs with
      | nil =>
        cases ys with
        | nil => rfl
        | cons y ys =>
          rw [join_cons_cons, join_singleton] at h
          exact absurd (List.append_right_eq_self.1 h.symm) (List.cons_ne_nil _ _)
      | cons x' xs =>
        cases ys with
        | nil =>
          rw [join_cons_cons, join_singleton] at h
          exact absurd (List.append_right_eq_self.1 h) (List.cons_ne_nil _ _)
        | cons y ys =>
          rw [join_cons_cons, join_cons_cons] at h
          rw [ih hmore hothers (List.cons.inj (List.append_cancel_left h)).2]

end Text

namespace Cache

open Text (decimal lit)

theorem takeWhile_decimal (n : Nat) (rest : Bytes) :
    (decimal n ++ 58 :: rest).takeWhile (· ≠ 58) = decimal n := by
  have hdigits : ∀ b ∈ decimal n, decide (b ≠ 58) = true := by
    rw [Decimal.decimal_eq]
    intro b hb
    obtain ⟨d, hd, rfl⟩ := List.mem_map.1 hb
    have hall : ∀ d < 10, decide ((48 + d).toUInt8 ≠ 58) = true := by decide
    exact hall d (Decimal.digits_digitsOf n d hd)
  rw [List.takeWhile_append_of_pos hdigits, List.takeWhile_cons_of_neg (by decide),
    List.append_nil]

theorem chunk_append (text rest : Bytes) :
    chunk text ++ rest = decimal text.length ++ 58 :: (text ++ rest) := by
  rw [chunk, List.append_assoc, List.append_assoc]
  rfl

/-- A text behind its length can be told from what follows. -/
theorem chunk_append_inj {a b x y : Bytes} (h : chunk a ++ x = chunk b ++ y) : a = b ∧ x = y := by
  rw [chunk_append, chunk_append] at h
  have hlength : decimal a.length = decimal b.length := by
    rw [← takeWhile_decimal a.length (a ++ x), h, takeWhile_decimal]
  rw [hlength] at h
  exact List.append_inj (List.cons.inj (List.append_cancel_left h)).2 (Text.decimal_inj hlength)

theorem chunk_ne_nil (text : Bytes) : chunk text ≠ [] := by
  intro h
  have hcolon := chunk_append text []
  rw [h] at hcolon
  exact absurd (List.append_eq_nil_iff.1 hcolon.symm).2 (List.cons_ne_nil _ _)

/-- No two lists of texts give the same text. -/
theorem flatMap_chunk_inj {xs ys : List Bytes} (h : xs.flatMap chunk = ys.flatMap chunk) :
    xs = ys := by
  induction xs generalizing ys with
  | nil =>
    cases ys with
    | nil => rfl
    | cons y ys => exact absurd (List.append_eq_nil_iff.1 h.symm).1 (chunk_ne_nil y)
  | cons x xs ih =>
    cases ys with
    | nil => exact absurd (List.append_eq_nil_iff.1 h).1 (chunk_ne_nil x)
    | cons y ys =>
      obtain ⟨rfl, hrest⟩ := chunk_append_inj h
      rw [ih hrest]

/-- The texts of which a key is made. -/
def parts (sources : List SourceFile) (settings : List (Bytes × Bytes)) : List Bytes :=
  Text.decimalInt formatVersion :: (sources.flatMap (fun s => [s.filename, s.text]) ++
    (settings.mergeSort fun a b => a.1 ≤ b.1).flatMap fun entry => [entry.1, entry.2])

theorem keyText_eq (sources : List SourceFile) (settings : List (Bytes × Bytes)) :
    keyText sources settings = (parts sources settings).flatMap chunk := by
  simp [keyText, parts, List.flatMap_assoc]

theorem flatMap_pair_inj {xs ys : List (Bytes × Bytes)}
    (h : (xs.flatMap fun entry => [entry.1, entry.2]) =
      ys.flatMap fun entry => [entry.1, entry.2]) : xs = ys := by
  induction xs generalizing ys with
  | nil =>
    cases ys with
    | nil => rfl
    | cons y ys => cases h
  | cons x xs ih =>
    cases ys with
    | nil => cases h
    | cons y ys =>
      obtain ⟨hname, hmore⟩ := List.cons.inj h
      obtain ⟨htext, hrest⟩ := List.cons.inj hmore
      exact congrArg₂ List.cons (Prod.ext hname htext) (ih hrest)

theorem map_pair_inj {xs ys : List SourceFile}
    (h : xs.map (fun s => (s.filename, s.text)) = ys.map fun s => (s.filename, s.text)) :
    xs = ys := by
  refine List.map_injective_iff.2 ?_ h
  intro a b hab
  cases a
  cases b
  cases hab
  rfl

theorem flatMap_source_inj {xs ys : List SourceFile}
    (h : xs.flatMap (fun s => [s.filename, s.text]) = ys.flatMap fun s => [s.filename, s.text]) :
    xs = ys := by
  refine map_pair_inj (flatMap_pair_inj ?_)
  rw [List.flatMap_map, List.flatMap_map]
  exact h

end Cache

namespace Settings

open Text (lit)

/-- The names of the host in the order and number in which they enter the key, as one text. -/
def globalsText (s : Settings) : Bytes :=
  Text.join (lit ",") (Text.dedupAdjacent (Text.sort s.globals))

theorem globalsText_eq_of_perm {s : Settings} {names : List Bytes} (hperm : s.globals.Perm names)
    (hsorted : names.Pairwise (· ≤ ·)) :
    s.globalsText = Text.join (lit ",") (Text.dedupAdjacent names) := by
  rw [globalsText, Text.sort_eq_of_perm hperm hsorted]

theorem parts_toTexts (s : Settings) (files : List SourceFile) :
    Cache.parts files s.toTexts =
      Text.decimalInt formatVersion :: (files.flatMap (fun s => [s.filename, s.text]) ++
        [lit "globals", s.globalsText, lit "late-binding",
          lit (if s.lateBinding then "true" else "false")]) := by
  have hsorted : s.toTexts.mergeSort (fun a b => a.1 ≤ b.1) = s.toTexts :=
    List.mergeSort_of_pairwise (by simp [toTexts]; decide)
  rw [Cache.parts, hsorted]
  rfl

/-- The files, the names of the host as they are joined and the kind of binding can be told from the
text of a key, and nothing else. -/
theorem keyText_eq_iff {s t : Settings} {xs ys : List SourceFile} :
    Cache.keyText xs s.toTexts = Cache.keyText ys t.toTexts ↔
      xs = ys ∧ s.globalsText = t.globalsText ∧ s.lateBinding = t.lateBinding := by
  constructor
  · intro h
    rw [Cache.keyText_eq, Cache.keyText_eq] at h
    have hparts := Cache.flatMap_chunk_inj h
    rw [parts_toTexts, parts_toTexts] at hparts
    obtain ⟨hfiles, hsettings⟩ := List.append_inj' (List.cons.inj hparts).2 rfl
    simp only [List.cons.injEq, and_true, true_and] at hsettings
    refine ⟨Cache.flatMap_source_inj hfiles, hsettings.1, ?_⟩
    cases hs : s.lateBinding <;> cases ht : t.lateBinding
    · rfl
    · rw [hs, ht] at hsettings
      exact absurd hsettings.2 (by decide)
    · rw [hs, ht] at hsettings
      exact absurd hsettings.2 (by decide)
    · rfl
  · rintro ⟨rfl, hglobals, hlate⟩
    rw [Cache.keyText_eq, Cache.keyText_eq, parts_toTexts, parts_toTexts, hglobals, hlate]

/-- Names that can be told from each other in the key are the same if the key is. -/
theorem mem_globals_of_globalsText {s t : Settings} (hs : ∀ n ∈ s.globals, Text.Separable n)
    (ht : ∀ n ∈ t.globals, Text.Separable n) (h : s.globalsText = t.globalsText) (n : Bytes) :
    n ∈ s.globals ↔ n ∈ t.globals := by
  have hmem (u : Settings) (m : Bytes) :
      m ∈ Text.dedupAdjacent (Text.sort u.globals) ↔ m ∈ u.globals := by
    rw [Text.mem_dedupAdjacent, Text.sort, List.mem_mergeSort]
  have hlists := Text.join_inj (fun m hm => hs m ((hmem s m).1 hm))
    (fun m hm => ht m ((hmem t m).1 hm)) h
  rw [← hmem s, hlists, hmem t]

end Settings
end StackLisp
