import Mathlib.Algebra.Group.Nat.Defs
import StackLisp.Cbor.Read

/-! Reading undoes writing. What is written is read back, followed by the bytes behind it, exactly
if its arrays and maps keep to the limits of the reader. -/
namespace StackLisp.Cbor

/-! ### The first bytes of an item -/

theorem length_bigEndian (width n : Nat) : (bigEndian width n).length = width := by
  induction width generalizing n with
  | zero => rfl
  | succ width ih =>
    rw [bigEndian, List.length_append, ih]
    rfl

theorem ofBigEndian_append (bs : Bytes) (b : UInt8) :
    ofBigEndian (bs ++ [b]) = 256 * ofBigEndian bs + b.toNat := by
  unfold ofBigEndian
  rw [List.foldl_append]
  rfl

theorem ofBigEndian_bigEndian {width n : Nat} (h : n < 256 ^ width) :
    ofBigEndian (bigEndian width n) = n := by
  induction width generalizing n with
  | zero =>
    have hn : n = 0 := by simpa using h
    rw [hn]
    rfl
  | succ width ih =>
    have hdiv : n / 256 < 256 ^ width := by
      rw [Nat.pow_succ] at h
      omega
    have hlow : n.toUInt8.toNat = n % 256 := by simp
    rw [bigEndian, ofBigEndian_append, ih hdiv, hlow]
    omega

theorem take?_append {n : Nat} {front rest : Bytes} (h : front.length = n) :
    take? n (front ++ rest) = some (front, rest) := by
  unfold take?
  rw [if_pos (by simp [h]), List.splitAt_eq]
  simp [← h]

/-- The largest arguments have eight bytes. -/
def wordSize : Nat := 0x10000000000000000

theorem readHead_long {major low n : Nat} (hmajor : major < 8) (hlow : 24 ≤ low) (hlow' : low ≤ 27)
    (hn : n < 256 ^ (Nat.pow 2 (low - 24))) (rest : Bytes) :
    readHead ((32 * major + low).toUInt8 :: bigEndian (Nat.pow 2 (low - 24)) n ++ rest) =
      some (major, low, .value n, rest) := by
  have hbyte : (32 * major + low).toUInt8.toNat = 32 * major + low := by
    simp
    omega
  have hdiv : (32 * major + low) / 32 = major := by omega
  have hmod : (32 * major + low) % 32 = low := by omega
  rw [List.cons_append, readHead, hbyte, hdiv, hmod]
  dsimp only
  rw [if_neg (by omega), if_neg (by omega), if_neg (by omega),
    take?_append (length_bigEndian _ n)]
  dsimp only [Option.bind_eq_bind, Option.bind_some]
  rw [ofBigEndian_bigEndian hn]

theorem readHead_head (major : Nat) {n : Nat} (hmajor : major < 8) (hn : n < wordSize) (rest : Bytes) :
    ∃ low, readHead (head major n ++ rest) = some (major, low, .value n, rest) ∧
      (n < 24 → low = n) := by
  unfold head
  by_cases hshort : n < 24
  · rw [if_pos hshort]
    have hbyte : (32 * major + n).toUInt8.toNat = 32 * major + n := by
      simp
      omega
    have hdiv : (32 * major + n) / 32 = major := by omega
    have hmod : (32 * major + n) % 32 = n := by omega
    refine ⟨n, ?_, fun _ => rfl⟩
    rw [List.singleton_append, readHead, hbyte, hdiv, hmod]
    exact if_pos hshort
  · rw [if_neg hshort]
    unfold wordSize at hn
    split
    · next hn => exact ⟨24, readHead_long hmajor (by omega) (by omega) hn rest, by omega⟩
    · split
      · next hn => exact ⟨25, readHead_long hmajor (by omega) (by omega) hn rest, by omega⟩
      · split
        · next hn => exact ⟨26, readHead_long hmajor (by omega) (by omega) hn rest, by omega⟩
        · exact ⟨27, readHead_long hmajor (by omega) (by omega) hn rest, by omega⟩

theorem length_head_pos (major n : Nat) : 0 < (head major n).length := by
  unfold head
  split
  · simp
  · split
    · simp
    · split
      · simp
      · split <;> simp

/-! ### Whole items -/

mutual
/-- Arrays and maps are neither longer nor nested deeper than can be read, when the item stands at
the given level. -/
def within (depth : Nat) : Cbor → Bool
  | array items => depth + 1 ≤ deepest && items.length ≤ longest && withinAll (depth + 1) items
  | map pairs => depth + 1 ≤ deepest && pairs.length ≤ longest && withinPairs (depth + 1) pairs
  | unsigned _ | negative _ | bytes _ | text _ | tag _ _ | simple _ | float _ _ => true

def withinAll (depth : Nat) : List Cbor → Bool
  | [] => true
  | i :: rest => within depth i && withinAll depth rest

def withinPairs (depth : Nat) : List (Cbor × Cbor) → Bool
  | [] => true
  | (k, v) :: rest => within depth k && within depth v && withinPairs depth rest
end

/-- Items without tags and floats, whose numbers and lengths fit in eight bytes. -/
inductive Writable : Cbor → Prop where
  | unsigned {n} : n < wordSize → Writable (.unsigned n)
  | negative {n} : n < wordSize → Writable (.negative n)
  | bytes {b} : b.length < wordSize → Writable (.bytes b)
  | text {t} : t.length < wordSize → Writable (.text [t])
  | array {items} : items.length < wordSize → (∀ i ∈ items, Writable i) → Writable (.array items)
  | map {pairs} : pairs.length < wordSize → (∀ p ∈ pairs, Writable p.1) →
      (∀ p ∈ pairs, Writable p.2) → Writable (.map pairs)
  | simple {n} : n < 24 → Writable (.simple n)

/-- With enough steps, the item is read if it keeps to the limits, and refused otherwise. -/
def Reads (item : Cbor) : Prop :=
  ∀ (fuel depth : Nat) (rest : Bytes), 2 * (encode item).length ≤ fuel →
    readItem fuel depth (encode item ++ rest) =
      if within depth item then some (item, rest) else none

theorem length_encode_pos (item : Cbor) : 0 < (encode item).length := by
  have hhead := length_head_pos
  cases item with
  | float width bits => simp [encode]
  | unsigned n | negative n | simple n =>
    rw [encode]
    exact hhead _ _
  | _ =>
    rw [encode, List.length_append]
    exact Nat.add_pos_left (hhead _ _) _

/-- Reading an item takes at least one step. -/
theorem reads_of_step {item : Cbor}
    (h : ∀ (fuel depth : Nat) (rest : Bytes), 2 * (encode item).length ≤ fuel + 1 →
      readItem (fuel + 1) depth (encode item ++ rest) =
        if within depth item then some (item, rest) else none) : Reads item := by
  intro fuel depth rest hfuel
  have hpos := length_encode_pos item
  obtain ⟨fuel, rfl⟩ : ∃ n, fuel = n + 1 := ⟨fuel - 1, by omega⟩
  exact h fuel depth rest hfuel

theorem readItems_encodeAll {items : List Cbor} (hreads : ∀ i ∈ items, Reads i)
    (fuel depth : Nat) (rest : Bytes) (hfuel : 2 * (encodeAll items).length + 1 ≤ fuel) :
    readItems fuel depth items.length (encodeAll items ++ rest) =
      if withinAll depth items then some (items, rest) else none := by
  induction items generalizing fuel with
  | nil =>
    obtain ⟨fuel, rfl⟩ : ∃ n, fuel = n + 1 := ⟨fuel - 1, by omega⟩
    simp [readItems, encodeAll, withinAll]
  | cons i items ih =>
    rw [encodeAll, List.length_append] at hfuel
    obtain ⟨fuel, rfl⟩ : ∃ n, fuel = n + 1 := ⟨fuel - 1, by omega⟩
    have hpos := length_encode_pos i
    have hread := hreads i List.mem_cons_self fuel depth (encodeAll items ++ rest) (by omega)
    have hothers := ih (fun x hx => hreads x (List.mem_cons_of_mem _ hx)) fuel (by omega)
    rw [encodeAll, List.append_assoc, List.length_cons, readItems, hread, withinAll]
    cases within depth i with
    | false => rfl
    | true =>
      rw [if_pos rfl, Bool.true_and]
      dsimp only
      rw [hothers]
      cases withinAll depth items with
      | false => rfl
      | true => rfl

/-- The keys and values of a map, one behind the other. -/
def unpaired (pairs : List (Cbor × Cbor)) : List Cbor := pairs.flatMap fun p => [p.1, p.2]

theorem unpaired_cons (k v : Cbor) (rest : List (Cbor × Cbor)) :
    unpaired ((k, v) :: rest) = k :: v :: unpaired rest := rfl

theorem length_unpaired (pairs : List (Cbor × Cbor)) :
    (unpaired pairs).length = 2 * pairs.length := by
  induction pairs with
  | nil => rfl
  | cons p rest ih =>
    rw [unpaired_cons, List.length_cons, List.length_cons, ih, List.length_cons]
    omega

theorem pairUp_unpaired (pairs : List (Cbor × Cbor)) : pairUp (unpaired pairs) = some pairs := by
  induction pairs with
  | nil => rfl
  | cons p rest ih =>
    rw [unpaired_cons, pairUp, ih]
    rfl

theorem encodePairs_eq (pairs : List (Cbor × Cbor)) :
    encodePairs pairs = encodeAll (unpaired pairs) := by
  induction pairs with
  | nil => rw [encodePairs, unpaired, List.flatMap_nil, encodeAll]
  | cons p rest ih =>
    rw [unpaired_cons, encodePairs, encodeAll, encodeAll, ih, List.append_assoc]

theorem withinPairs_eq (depth : Nat) (pairs : List (Cbor × Cbor)) :
    withinPairs depth pairs = withinAll depth (unpaired pairs) := by
  induction pairs with
  | nil => rw [withinPairs, unpaired, List.flatMap_nil, withinAll]
  | cons p rest ih =>
    rw [unpaired_cons, withinPairs, withinAll, withinAll, ih, Bool.and_assoc]

theorem readString_known {major fuel n : Nat} {text rest : Bytes} (h : text.length = n) :
    readString major fuel (.value n) (text ++ rest) = some ([text], rest) := by
  rw [readString, take?_append h]
  rfl

section
variable {fuel depth low n : Nat} {data rest : Bytes}

theorem readItem_string (h : readHead data = some (2, low, .value n, rest)) :
    readItem (fuel + 1) depth data =
      (readString 2 fuel (.value n) rest).map fun (ps, rest) => (bytes ps.flatten, rest) := by
  rw [readItem, h]
  rfl

theorem readItem_text (h : readHead data = some (3, low, .value n, rest)) :
    readItem (fuel + 1) depth data =
      (readString 3 fuel (.value n) rest).map fun (ps, rest) => (text ps, rest) := by
  rw [readItem, h]
  rfl

theorem readItem_array (h : readHead data = some (4, low, .value n, rest)) :
    readItem (fuel + 1) depth data =
      if depth + 1 > deepest ∨ n > longest then none
      else (readItems fuel (depth + 1) n rest).map fun (is, rest) => (array is, rest) := by
  rw [readItem, h]
  rfl

theorem readItem_map (h : readHead data = some (5, low, .value n, rest)) :
    readItem (fuel + 1) depth data =
      if depth + 1 > deepest ∨ n > longest then none
      else match readItems fuel (depth + 1) (2 * n) rest with
        | none => none
        | some (is, rest) => (pairUp is).map fun ps => (map ps, rest) := by
  rw [readItem, h]
  rfl

theorem readItem_simple (h : readHead data = some (7, low, .value n, rest)) :
    readItem (fuel + 1) depth data = (readSimple low (.value n)).map fun i => (i, rest) := by
  rw [readItem, h]
  rfl

end

theorem reads_array {items : List Cbor} (hlen : items.length < wordSize)
    (hreads : ∀ i ∈ items, Reads i) : Reads (array items) := by
  refine reads_of_step fun fuel depth rest hfuel => ?_
  have hone := length_head_pos 4 items.length
  rw [encode, List.length_append] at hfuel
  obtain ⟨low, hhead, -⟩ := readHead_head 4 (by omega) hlen (encodeAll items ++ rest)
  have hread := readItems_encodeAll hreads fuel (depth + 1) rest (by omega)
  rw [encode, List.append_assoc, readItem_array hhead, hread, within]
  by_cases hdeep : depth + 1 > deepest
  · simp [hdeep, Nat.not_le.2 hdeep]
  · by_cases hlong : items.length > longest
    · simp [hlong, Nat.not_le.2 hlong]
    · simp only [hdeep, hlong, or_self, if_false, Nat.not_lt.1 hdeep, Nat.not_lt.1 hlong,
        decide_true, Bool.true_and]
      cases withinAll (depth + 1) items with
      | false => rfl
      | true => rfl

theorem reads_map {pairs : List (Cbor × Cbor)} (hlen : pairs.length < wordSize)
    (hreads : ∀ i ∈ unpaired pairs, Reads i) : Reads (map pairs) := by
  refine reads_of_step fun fuel depth rest hfuel => ?_
  have hone := length_head_pos 5 pairs.length
  rw [encode, encodePairs_eq, List.length_append] at hfuel
  obtain ⟨low, hhead, -⟩ := readHead_head 5 (by omega) hlen (encodeAll (unpaired pairs) ++ rest)
  have hread := readItems_encodeAll hreads fuel (depth + 1) rest (by omega)
  rw [length_unpaired] at hread
  rw [encode, encodePairs_eq, List.append_assoc, readItem_map hhead, hread, within,
    withinPairs_eq]
  by_cases hdeep : depth + 1 > deepest
  · simp [hdeep, Nat.not_le.2 hdeep]
  · by_cases hlong : pairs.length > longest
    · simp [hlong, Nat.not_le.2 hlong]
    · simp only [hdeep, hlong, or_self, if_false, Nat.not_lt.1 hdeep, Nat.not_lt.1 hlong,
        decide_true, Bool.true_and]
      cases withinAll (depth + 1) (unpaired pairs) with
      | false => rfl
      | true =>
        simp only [if_true]
        rw [pairUp_unpaired]
        rfl

/-- What can be written is read as it was written. -/
theorem Writable.reads {item : Cbor} (h : item.Writable) : Reads item := by
  induction h with
  | array hlen _ ih => exact reads_array hlen ih
  | @map pairs hlen _ _ ihkeys ihvalues =>
    refine reads_map hlen fun i hi => ?_
    obtain ⟨p, hp, hi⟩ := List.mem_flatMap.1 hi
    simp only [List.mem_cons, List.not_mem_nil, or_false] at hi
    rcases hi with rfl | rfl
    · exact ihkeys p hp
    · exact ihvalues p hp
  | unsigned hn =>
    refine reads_of_step fun fuel depth rest _ => ?_
    obtain ⟨low, hhead, -⟩ := readHead_head 0 (by omega) hn rest
    rw [encode, readItem, hhead, within]
    rfl
  | negative hn =>
    refine reads_of_step fun fuel depth rest _ => ?_
    obtain ⟨low, hhead, -⟩ := readHead_head 1 (by omega) hn rest
    rw [encode, readItem, hhead, within]
    rfl
  | @bytes b hb =>
    refine reads_of_step fun fuel depth rest _ => ?_
    obtain ⟨low, hhead, -⟩ := readHead_head 2 (by omega) hb (b ++ rest)
    rw [encode, List.append_assoc, readItem_string hhead, readString_known rfl, within]
    simp
  | @text t ht =>
    refine reads_of_step fun fuel depth rest _ => ?_
    obtain ⟨low, hhead, -⟩ := readHead_head 3 (by omega) ht (t ++ rest)
    rw [encode, List.flatten_singleton, List.append_assoc, readItem_text hhead,
      readString_known rfl, within]
    rfl
  | @simple n hn =>
    refine reads_of_step fun fuel depth rest _ => ?_
    have hword : n < wordSize := by
      unfold wordSize
      omega
    obtain ⟨low, hhead, hlow⟩ := readHead_head 7 (by omega) hword rest
    rw [encode, readItem_simple hhead, hlow hn, within]
    simp [readSimple, hn]

/-- Data that was written is read back exactly if it keeps to the limits. -/
theorem read_encode {item : Cbor} (h : item.Writable) :
    read (encode item) = if within 0 item then some item else none := by
  have hread := h.reads (2 * (encode item).length + 2) 0 [] (by omega)
  rw [List.append_nil] at hread
  rw [read, hread]
  cases within 0 item with
  | false => rfl
  | true => rfl

end StackLisp.Cbor
