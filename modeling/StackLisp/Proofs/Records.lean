import StackLisp.Image.Format
import StackLisp.Proofs.CborReading
import StackLisp.Proofs.Sequences

/-! Records: the fields of constants, locations and functions are read as they were written. Texts
are read only if they are valid. -/
namespace StackLisp

/-- Numbers that fit in a machine word. -/
def IsWord (i : Int) : Prop := -0x8000000000000000 ≤ i ∧ i ≤ 0x7fffffffffffffff

instance (i : Int) : Decidable (IsWord i) := inferInstanceAs (Decidable (_ ∧ _))

namespace Cbor

theorem toInt?_unsigned (least most : Int) (n : Nat) :
    toInt? least most (unsigned n) = if least ≤ n ∧ n ≤ most then some (n : Int) else none := rfl

theorem toInt?_negative (least most : Int) (n : Nat) :
    toInt? least most (negative n) =
      if least ≤ -1 - n ∧ -1 - n ≤ most then some (-1 - n : Int) else none := rfl

theorem toInt64?_ofInt {i : Int} (h : IsWord i) : toInt64? (ofInt i) = some i := by
  unfold IsWord at h
  unfold toInt64? ofInt
  by_cases hneg : i < 0
  · have hback : -1 - ((-1 - i).toNat : Int) = i := by omega
    rw [if_pos hneg, toInt?_negative, hback, if_pos h]
  · have hback : ((i.toNat : Nat) : Int) = i := by omega
    rw [if_neg hneg, toInt?_unsigned, hback, if_pos h]

theorem toByte?_unsigned {n : Nat} (h : n < 256) : toByte? (unsigned n) = some n.toUInt8 := by
  have hrange : (0 : Int) ≤ n ∧ (n : Int) ≤ 255 := by omega
  rw [toByte?, toInt?_unsigned, if_pos hrange]
  rfl

theorem toText?_ofText (t : Bytes) :
    toText? (ofText t) = if Text.isValid t then some t else none := by
  simp [toText?, ofText, untagged]

theorem toList?_array {α : Type} (read : Cbor → Option α) (items : List Cbor) :
    toList? read (array items) = items.mapM read := by
  simp [toList?, untagged]

theorem writable_ofInt {i : Int} (h : IsWord i) : (ofInt i).Writable := by
  unfold IsWord at h
  unfold ofInt
  by_cases hneg : i < 0
  · rw [if_pos hneg]
    exact .negative (by unfold wordSize; omega)
  · rw [if_neg hneg]
    exact .unsigned (by unfold wordSize; omega)

theorem within_ofInt (depth : Nat) (i : Int) : within depth (ofInt i) = true := by
  unfold ofInt
  split
  · rw [within]
  · rw [within]

theorem within_ofText (depth : Nat) (t : Bytes) : within depth (ofText t) = true := by
  rw [ofText, within]

theorem withinAll_eq (depth : Nat) (items : List Cbor) :
    withinAll depth items = items.all (within depth) := by
  induction items with
  | nil => rw [withinAll, List.all_nil]
  | cons i rest ih => rw [withinAll, List.all_cons, ih]

/-! ### Fields -/

/-- A field of a record, which is left out if it has the default. -/
structure Entry where
  isDefault : Bool
  number : Nat
  item : Cbor

/-- The pairs of a map with the given entries. -/
def Entry.pairs (es : List Entry) : List (Cbor × Cbor) :=
  es.flatMap fun e => fieldUnless e.isDefault e.number e.item

/-- The fields that are read from such a map. -/
def Fields.of (es : List Entry) : Fields :=
  es.flatMap fun e => if e.isDefault then [] else [(.number e.number, e.item)]

theorem toKey?_unsigned {n : Nat} (h : n < 256) : toKey? (unsigned n) = some (.number n) := by
  have hmod : Int.bmod n 0x10000000000000000 = n := by
    rw [Int.bmod_eq_of_le (by omega) (by omega)]
  rw [toKey?, hmod]

theorem toFields?_pairs {es : List Entry} (h : ∀ e ∈ es, e.number < 256) :
    toFields? (map (Entry.pairs es)) = some (.of es) := by
  have hfields : ((Entry.pairs es).mapM fun p => (toKey? p.1).map fun key => (key, p.2)) =
      some (Fields.of es) := by
    induction es with
    | nil => rfl
    | cons e es ih =>
      have hrest := ih fun x hx => h x (List.mem_cons_of_mem _ hx)
      have hkey := toKey?_unsigned (h e List.mem_cons_self)
      unfold Entry.pairs Fields.of at hrest ⊢
      rw [List.flatMap_cons, List.flatMap_cons, List.mapM_append, hrest]
      cases e.isDefault with
      | true => rfl
      | false => simp [fieldUnless, field, hkey]
  exact hfields

theorem length_pairs_le (es : List Entry) : (Entry.pairs es).length ≤ es.length := by
  induction es with
  | nil => exact Nat.le_refl _
  | cons e es ih =>
    unfold Entry.pairs at ih ⊢
    rw [List.flatMap_cons, List.length_append, List.length_cons]
    have hone : (fieldUnless e.isDefault e.number e.item).length ≤ 1 := by
      unfold fieldUnless
      split <;> simp
    omega

theorem mem_pairs {es : List Entry} {p : Cbor × Cbor} (h : p ∈ Entry.pairs es) :
    ∃ e ∈ es, e.isDefault = false ∧ p = (unsigned e.number, e.item) := by
  obtain ⟨e, he, hp⟩ := List.mem_flatMap.1 h
  unfold fieldUnless at hp
  cases hd : e.isDefault with
  | true => simp [hd] at hp
  | false =>
    rw [hd, if_neg Bool.false_ne_true, List.mem_singleton] at hp
    exact ⟨e, he, hd, hp⟩

/-- A record can be written if its fields can. -/
theorem writable_pairs {es : List Entry} (hlen : es.length ≤ 8)
    (h : ∀ e ∈ es, e.number < 256 ∧ (e.isDefault = false → e.item.Writable)) :
    (map (Entry.pairs es)).Writable := by
  have hshort := length_pairs_le es
  refine .map (by unfold wordSize; omega) (fun p hp => ?_) (fun p hp => ?_)
  · obtain ⟨e, he, -, rfl⟩ := mem_pairs hp
    have hn := (h e he).1
    exact .unsigned (by unfold wordSize; omega)
  · obtain ⟨e, he, hd, rfl⟩ := mem_pairs hp
    exact (h e he).2 hd

theorem withinPairs_pairs (depth : Nat) (es : List Entry) :
    withinPairs depth (Entry.pairs es) = es.all fun e => e.isDefault || within depth e.item := by
  induction es with
  | nil => simp [Entry.pairs, withinPairs]
  | cons e es ih =>
    unfold Entry.pairs at ih ⊢
    rw [List.flatMap_cons, List.all_cons, ← ih]
    cases e.isDefault with
    | true => rfl
    | false => simp [fieldUnless, field, withinPairs, within]

/-- A record keeps to the limits if its fields do. -/
theorem within_pairs {depth : Nat} {es : List Entry} (hdepth : depth + 1 ≤ deepest)
    (hlen : es.length ≤ 8) :
    within depth (map (Entry.pairs es)) =
      es.all fun e => e.isDefault || within (depth + 1) e.item := by
  have hshort := length_pairs_le es
  have hlong : (Entry.pairs es).length ≤ longest := by
    unfold longest
    omega
  rw [within, withinPairs_pairs]
  simp [hdepth, hlong]

/-- A list is left out if it is empty. Otherwise it keeps to the limits if it is not too long and
what stands in it does. -/
theorem within_list {α : Type} {write : α → Cbor} {xs : List α} {depth : Nat}
    (hdepth : depth + 1 ≤ deepest) :
    (xs.isEmpty || within depth (array (xs.map write))) =
      (decide (xs.length ≤ longest) && xs.all fun x => within (depth + 1) (write x)) := by
  cases xs with
  | nil => rfl
  | cons x xs =>
    rw [List.isEmpty_cons, Bool.false_or, within, withinAll_eq, List.all_map, List.length_map]
    simp only [hdepth, decide_true, Bool.true_and]
    rfl

theorem writable_list {α : Type} {write : α → Cbor} {xs : List α} (hlen : xs.length < wordSize)
    (h : ∀ x ∈ xs, (write x).Writable) : (array (xs.map write)).Writable := by
  refine .array (by rw [List.length_map]; exact hlen) fun i hi => ?_
  obtain ⟨x, hx, rfl⟩ := List.mem_map.1 hi
  exact h x hx

namespace Fields

variable {α : Type} {default : α} {read : Cbor → Option α} {es : List Entry}

@[simp] theorem get?_nil (n : Nat) : get? (.of []) n default read = some default := rfl

/-- A field is found by its number only. -/
@[simp] theorem get?_cons_of_ne {isDefault : Bool} {m n : Nat} {item : Cbor} (h : m ≠ n) :
    get? (.of (⟨isDefault, m, item⟩ :: es)) n default read = get? (.of es) n default read := by
  have hkey : ¬ (Key.number (m : Int) = .number n ∨
      Key.number (m : Int) = .name (Text.decimal n)) := by
    simp
    omega
  cases isDefault with
  | true => rfl
  | false =>
    unfold get? find? of
    rw [List.flatMap_cons, if_neg Bool.false_ne_true, List.singleton_append,
      List.find?_cons_of_neg (by simpa using hkey)]

theorem get?_cons_self {isDefault : Bool} {n : Nat} {item : Cbor} :
    get? (.of (⟨isDefault, n, item⟩ :: es)) n default read =
      if isDefault then get? (.of es) n default read else read item := by
  cases isDefault with
  | true => rfl
  | false =>
    unfold get? find? of
    rw [List.flatMap_cons, if_neg Bool.false_ne_true, List.singleton_append,
      List.find?_cons_of_pos (by simp)]
    rfl

/-- A number is read from its field, or is the default. -/
theorem get?_int {i : Int} (h : IsWord i) {n : Nat}
    (hes : get? (.of es) n 0 toInt64? = some 0) :
    get? (.of (⟨i = 0, n, ofInt i⟩ :: es)) n 0 toInt64? = some i := by
  rw [get?_cons_self]
  by_cases hi : i = 0
  · simp [hi, hes]
  · simp [hi, toInt64?_ofInt h]

theorem get?_text {t : Bytes} {n : Nat} (hes : get? (.of es) n [] toText? = some []) :
    get? (.of (⟨t = [], n, ofText t⟩ :: es)) n [] toText? =
      if Text.isValid t then some t else none := by
  rw [get?_cons_self]
  by_cases ht : t = []
  · subst ht
    exact hes
  · simp [ht, toText?_ofText]

theorem get?_list {β γ : Type} {readItem : Cbor → Option γ} {write : β → Cbor} {value : β → γ}
    {good : β → Bool} {xs : List β}
    (h : ∀ x ∈ xs, readItem (write x) = if good x then some (value x) else none) {n : Nat}
    (hes : get? (.of es) n [] (toList? readItem) = some []) :
    get? (.of (⟨xs.isEmpty, n, array (xs.map write)⟩ :: es)) n [] (toList? readItem) =
      if xs.all good then some (xs.map value) else none := by
  rw [get?_cons_self]
  cases xs with
  | nil => simpa using hes
  | cons x xs =>
    rw [List.isEmpty_cons, if_neg Bool.false_ne_true, toList?_array, List.mapM_map_ite h]

end Fields
end Cbor

/-! ### Constants and locations -/

/-- The text in a value; numbers and the like have none. -/
def Value.text : Value → Bytes
  | .string s | .name s => s
  | _ => []

namespace Constant

def text : Constant → Bytes
  | .value v => v.text
  | _ => []

/-- The length of a text fits in eight bytes, and a place in a machine word. -/
def Sized : Constant → Prop
  | .value v => v.text.length < Cbor.wordSize
  | .function i => (i : Int) ≤ 0x7fffffffffffffff
  | .foreign => True

instance (c : Constant) : Decidable c.Sized :=
  match c with
  | .value _ => inferInstanceAs (Decidable (_ < _))
  | .function _ => inferInstanceAs (Decidable (_ ≤ _))
  | .foreign => inferInstanceAs (Decidable True)

/-- What stands for a constant in an image. -/
def toRecord : Constant → Image.ConstantRecord
  | .value .unit => ⟨1, 0, []⟩
  | .value (.bool b) => ⟨2, if b then 1 else 0, []⟩
  | .value (.int i) => ⟨3, i.toInt, []⟩
  | .value (.float x) => ⟨4, x.bits.toInt64.toInt, []⟩
  | .value (.string s) => ⟨5, 0, s⟩
  | .value (.char c) => ⟨6, c.toInt, []⟩
  | .value (.name n) => ⟨7, 0, n⟩
  | .function i => ⟨8, i, []⟩
  | .foreign => ⟨0, 0, []⟩

/-- The item of a constant. -/
def item (c : Constant) : Cbor := record c.toRecord.kind c.toRecord.int c.toRecord.text

theorem toCbor_eq {c : Constant} (h : c ≠ .foreign) : c.toCbor = .ok c.item := by
  cases c with
  | value v => cases v <;> rfl
  | function i => rfl
  | foreign => exact absurd rfl h

theorem text_toRecord (c : Constant) : c.toRecord.text = c.text := by
  cases c with
  | value v => cases v <;> rfl
  | _ => rfl

theorem kind_toRecord_lt (c : Constant) : c.toRecord.kind < 256 := by
  cases c with
  | value v => cases v <;> simp [toRecord]
  | _ => simp [toRecord]

theorem isWord_toRecord {c : Constant} (h : c.Sized) : IsWord c.toRecord.int := by
  unfold IsWord
  cases c with
  | value v =>
    cases v with
    | int i =>
      have := i.toInt_lt
      have := i.le_toInt
      simp only [toRecord]
      omega
    | float x =>
      have := x.bits.toInt64.toInt_lt
      have := x.bits.toInt64.le_toInt
      simp only [toRecord]
      omega
    | char c =>
      have := c.toInt_lt
      have := c.le_toInt
      simp only [toRecord]
      omega
    | bool b => cases b <;> simp [toRecord]
    | _ => simp [toRecord]
  | function i =>
    unfold Sized at h
    simp only [toRecord]
    omega
  | foreign => simp [toRecord]

/-- The fields of a constant. -/
def entries (kind : Nat) (i : Int) (t : Bytes) : List Cbor.Entry :=
  [⟨false, 1, .unsigned kind⟩, ⟨i = 0, 2, Cbor.ofInt i⟩, ⟨t = [], 3, Cbor.ofText t⟩]

theorem record_eq (kind : Nat) (i : Int) (t : Bytes) :
    record kind i t = .map (Cbor.Entry.pairs (entries kind i t)) := by
  simp [record, Cbor.Entry.pairs, entries, Cbor.fieldUnless]

theorem ofCbor?_record {kind : Nat} (hkind : kind < 256) {i : Int} (hi : IsWord i) (t : Bytes) :
    Image.ConstantRecord.ofCbor? (record kind i t) =
      if Text.isValid t then some ⟨kind, i, t⟩ else none := by
  have hfields : Cbor.toFields? (.map (Cbor.Entry.pairs (entries kind i t))) =
      some (.of (entries kind i t)) :=
    Cbor.toFields?_pairs (by simp [entries])
  have hread₁ : (Cbor.Fields.of (entries kind i t)).get? 1 0 Cbor.toByte? =
      some kind.toUInt8 := by
    rw [entries, Cbor.Fields.get?_cons_self]
    exact Cbor.toByte?_unsigned hkind
  have hread₂ : (Cbor.Fields.of (entries kind i t)).get? 2 0 Cbor.toInt64? = some i := by
    rw [entries, Cbor.Fields.get?_cons_of_ne (by decide)]
    exact Cbor.Fields.get?_int hi (by simp)
  have hread₃ : (Cbor.Fields.of (entries kind i t)).get? 3 [] Cbor.toText? =
      if Text.isValid t then some t else none := by
    rw [entries, Cbor.Fields.get?_cons_of_ne (by decide), Cbor.Fields.get?_cons_of_ne (by decide)]
    exact Cbor.Fields.get?_text (by simp)
  have hback : kind.toUInt8.toNat = kind := by
    simp
    omega
  unfold Image.ConstantRecord.ofCbor?
  rw [record_eq, hfields]
  simp only [Option.bind_eq_bind, Option.bind_some, hread₁, hread₂, hread₃, hback]
  cases Text.isValid t with
  | false => rfl
  | true => rfl

/-- A constant is read if its text is valid. -/
theorem ofCbor?_item {c : Constant} (h : c.Sized) :
    Image.ConstantRecord.ofCbor? c.item =
      if Text.isValid c.text then some c.toRecord else none := by
  rw [item, ofCbor?_record c.kind_toRecord_lt (isWord_toRecord h), text_toRecord]
  have htext : c.toRecord = ⟨c.toRecord.kind, c.toRecord.int, c.text⟩ := by rw [← text_toRecord]
  rw [← htext]

/-- What was read stands for the constant, if it refers to an earlier function. -/
theorem constant_toRecord {c : Constant} {f : Nat} (h : c ≠ .foreign)
    (hearlier : ∀ j, c = .function j → j < f) (place : Nat) :
    c.toRecord.constant f place = .ok c := by
  cases c with
  | value v =>
    cases v with
    | bool b => cases b <;> rfl
    | int i => simp [toRecord, Image.ConstantRecord.constant]
    | float x => simp [toRecord, Image.ConstantRecord.constant]
    | char c => simp [toRecord, Image.ConstantRecord.constant]
    | _ => rfl
  | function j =>
    have hj := hearlier j rfl
    have hrange : 0 ≤ (j : Int) ∧ (j : Int) < f := by omega
    exact if_pos hrange
  | foreign => exact absurd rfl h

theorem writable_item {c : Constant} (h : c.Sized) : c.item.Writable := by
  have htext : c.toRecord.text.length < Cbor.wordSize := by
    rw [text_toRecord]
    cases c with
    | value v => exact h
    | _ => simp [text, Cbor.wordSize]
  have hkind := c.kind_toRecord_lt
  rw [item, record_eq]
  refine Cbor.writable_pairs (by simp [entries]) fun e he => ?_
  simp only [entries, List.mem_cons, List.not_mem_nil, or_false] at he
  rcases he with rfl | rfl | rfl
  · exact ⟨by simp, fun _ => .unsigned (by unfold Cbor.wordSize; omega)⟩
  · exact ⟨by simp, fun _ => Cbor.writable_ofInt (isWord_toRecord h)⟩
  · exact ⟨by simp, fun _ => .text htext⟩

theorem within_item (c : Constant) {depth : Nat} (h : depth + 1 ≤ Cbor.deepest) :
    Cbor.within depth c.item = true := by
  rw [item, record_eq, Cbor.within_pairs h (by simp [entries])]
  simp [entries, Cbor.within_ofInt, Cbor.within_ofText, Cbor.within]

end Constant

namespace SourceLocation

/-- The numbers of the location fit in a machine word. -/
def Sized (l : SourceLocation) : Prop := IsWord l.offset ∧ IsWord l.line ∧ IsWord l.column

instance (l : SourceLocation) : Decidable l.Sized := inferInstanceAs (Decidable (_ ∧ _ ∧ _))

def entries (l : SourceLocation) : List Cbor.Entry :=
  [⟨false, 1, Cbor.ofInt l.offset⟩, ⟨false, 2, Cbor.ofInt l.line⟩,
    ⟨false, 3, Cbor.ofInt l.column⟩]

theorem toCbor_eq (l : SourceLocation) : l.toCbor = .map (Cbor.Entry.pairs l.entries) := rfl

theorem ofCbor?_toCbor {l : SourceLocation} (h : l.Sized) : ofCbor? l.toCbor = some l := by
  obtain ⟨hoffset, hline, hcolumn⟩ := h
  have hfields : Cbor.toFields? (.map (Cbor.Entry.pairs l.entries)) = some (.of l.entries) :=
    Cbor.toFields?_pairs (by simp [entries])
  unfold ofCbor?
  rw [toCbor_eq, hfields]
  simp [entries, Cbor.Fields.get?_cons_self, Cbor.toInt64?_ofInt, hoffset, hline, hcolumn]

theorem writable_toCbor {l : SourceLocation} (h : l.Sized) : l.toCbor.Writable := by
  obtain ⟨hoffset, hline, hcolumn⟩ := h
  rw [toCbor_eq]
  refine Cbor.writable_pairs (by simp [entries]) fun e he => ?_
  simp only [entries, List.mem_cons, List.not_mem_nil, or_false] at he
  rcases he with rfl | rfl | rfl
  · exact ⟨by simp, fun _ => Cbor.writable_ofInt hoffset⟩
  · exact ⟨by simp, fun _ => Cbor.writable_ofInt hline⟩
  · exact ⟨by simp, fun _ => Cbor.writable_ofInt hcolumn⟩

theorem within_toCbor (l : SourceLocation) {depth : Nat} (h : depth + 1 ≤ Cbor.deepest) :
    Cbor.within depth l.toCbor = true := by
  rw [toCbor_eq, Cbor.within_pairs h (by simp [entries])]
  simp [entries, Cbor.within_ofInt]

end SourceLocation

/-! ### Functions -/

namespace Function

/-- The texts of a function: names, and what its constants hold. -/
def texts (f : Function) : List Bytes :=
  f.name :: f.filename :: f.locals ++ f.constants.map Constant.text

/-- The lists of the function are no longer than can be read. -/
def Short (f : Function) : Prop :=
  f.constants.length ≤ Cbor.longest ∧ f.locals.length ≤ Cbor.longest ∧
    f.locations.length ≤ Cbor.longest

instance (f : Function) : Decidable f.Short := inferInstanceAs (Decidable (_ ∧ _ ∧ _))

/-- The function is of a size that a machine can hold: numbers fit in a machine word, and lengths in
eight bytes. -/
structure Sized (f : Function) : Prop where
  texts : ∀ t ∈ f.texts, t.length < Cbor.wordSize
  params : IsWord f.params
  captures : IsWord f.captures
  constants : ∀ c ∈ f.constants, c.Sized
  code : f.bytes.length < Cbor.wordSize
  locations : ∀ l ∈ f.locations, l.Sized
  lengths : f.constants.length < Cbor.wordSize ∧ f.locals.length < Cbor.wordSize ∧
    f.locations.length < Cbor.wordSize

theorem sized_iff (f : Function) : f.Sized ↔
    (∀ t ∈ f.texts, t.length < Cbor.wordSize) ∧ IsWord f.params ∧ IsWord f.captures ∧
      (∀ c ∈ f.constants, c.Sized) ∧ f.bytes.length < Cbor.wordSize ∧
      (∀ l ∈ f.locations, l.Sized) ∧ f.constants.length < Cbor.wordSize ∧
      f.locals.length < Cbor.wordSize ∧ f.locations.length < Cbor.wordSize :=
  ⟨fun ⟨h₁, h₂, h₃, h₄, h₅, h₆, h₇⟩ => ⟨h₁, h₂, h₃, h₄, h₅, h₆, h₇⟩,
    fun ⟨h₁, h₂, h₃, h₄, h₅, h₆, h₇⟩ => ⟨h₁, h₂, h₃, h₄, h₅, h₆, h₇⟩⟩

instance (f : Function) : Decidable f.Sized := decidable_of_iff' _ f.sized_iff

/-- The item of the code; a function may lack it. -/
def codeItem (f : Function) : Cbor :=
  match f.code with
  | some code => .bytes code
  | none => .null

def entries (f : Function) : List Cbor.Entry :=
  [⟨f.name = [], 1, Cbor.ofText f.name⟩, ⟨false, 2, Cbor.ofInt f.params⟩,
    ⟨f.captures = 0, 3, Cbor.ofInt f.captures⟩,
    ⟨f.constants.isEmpty, 4, .array (f.constants.map Constant.item)⟩, ⟨false, 5, f.codeItem⟩,
    ⟨f.locals.isEmpty, 6, .array (f.locals.map Cbor.ofText)⟩,
    ⟨f.filename = [], 7, Cbor.ofText f.filename⟩,
    ⟨f.locations.isEmpty, 8, .array (f.locations.map SourceLocation.toCbor)⟩]

/-- The item of a function. -/
def item (f : Function) : Cbor := .map (Cbor.Entry.pairs f.entries)

theorem toCbor_eq {f : Function} (h : .foreign ∉ f.constants) : f.toCbor = .ok f.item := by
  unfold toCbor
  rw [List.mapM_eq_ok_map fun c hc => Constant.toCbor_eq fun hforeign => h (hforeign ▸ hc)]
  simp [item, entries, Cbor.Entry.pairs, Cbor.fieldUnless, pure, Except.pure, bind, Except.bind]
  rfl

theorem toBytes?_codeItem (f : Function) : Cbor.toBytes? f.codeItem = some f.code := by
  unfold codeItem
  cases f.code with
  | none => rfl
  | some code => rfl

/-- What is read of a function whose texts are valid. -/
def toRecord (f : Function) : Image.FunctionRecord :=
  ⟨{ f with constants := [] }, f.constants.map Constant.toRecord⟩

theorem get?_constants {f : Function} (h : f.Sized) :
    (Cbor.Fields.of f.entries).get? 4 [] (Cbor.toList? Image.ConstantRecord.ofCbor?) =
      if (f.constants.map Constant.text).all Text.isValid then
        some (f.constants.map Constant.toRecord)
      else none := by
  rw [List.all_map]
  simp only [entries, Cbor.Fields.get?_cons_of_ne, ne_eq, not_false_eq_true, Nat.reduceEqDiff]
  exact Cbor.Fields.get?_list (fun c hc => Constant.ofCbor?_item (h.constants c hc)) (by simp)

theorem get?_locals (f : Function) :
    (Cbor.Fields.of f.entries).get? 6 [] (Cbor.toList? Cbor.toText?) =
      if f.locals.all Text.isValid then some f.locals else none := by
  have hread : ∀ t ∈ f.locals, Cbor.toText? (Cbor.ofText t) =
      if Text.isValid t then some (id t) else none := fun t _ => Cbor.toText?_ofText t
  simp only [entries, Cbor.Fields.get?_cons_of_ne, ne_eq, not_false_eq_true, Nat.reduceEqDiff]
  rw [Cbor.Fields.get?_list hread (by simp), List.map_id]

theorem get?_locations {f : Function} (h : f.Sized) :
    (Cbor.Fields.of f.entries).get? 8 [] (Cbor.toList? SourceLocation.ofCbor?) =
      some f.locations := by
  have hread : ∀ l ∈ f.locations, SourceLocation.ofCbor? l.toCbor =
      if true then some (id l) else none :=
    fun l hl => SourceLocation.ofCbor?_toCbor (h.locations l hl)
  simp only [entries, Cbor.Fields.get?_cons_of_ne, ne_eq, not_false_eq_true, Nat.reduceEqDiff]
  rw [Cbor.Fields.get?_list hread (by simp), List.map_id]
  simp

/-- A function is read exactly if its texts are valid. -/
theorem ofCbor?_item {f : Function} (h : f.Sized) :
    Image.FunctionRecord.ofCbor? f.item =
      if f.texts.all Text.isValid then some f.toRecord else none := by
  have hfields : Cbor.toFields? f.item = some (.of f.entries) :=
    Cbor.toFields?_pairs (by simp [entries])
  have hname : (Cbor.Fields.of f.entries).get? 1 [] Cbor.toText? =
      if Text.isValid f.name then some f.name else none :=
    Cbor.Fields.get?_text (by simp)
  have hparams : (Cbor.Fields.of f.entries).get? 2 0 Cbor.toInt64? = some f.params := by
    simp [entries, Cbor.Fields.get?_cons_self, Cbor.toInt64?_ofInt h.params]
  have hcaptures : (Cbor.Fields.of f.entries).get? 3 0 Cbor.toInt64? = some f.captures := by
    rw [entries, Cbor.Fields.get?_cons_of_ne (by decide), Cbor.Fields.get?_cons_of_ne (by decide)]
    exact Cbor.Fields.get?_int h.captures (by simp)
  have hcode : (Cbor.Fields.of f.entries).get? 5 none Cbor.toBytes? = some f.code := by
    simp [entries, Cbor.Fields.get?_cons_self, toBytes?_codeItem]
  have hfilename : (Cbor.Fields.of f.entries).get? 7 [] Cbor.toText? =
      if Text.isValid f.filename then some f.filename else none := by
    simp only [entries, Cbor.Fields.get?_cons_of_ne, ne_eq, not_false_eq_true, Nat.reduceEqDiff]
    exact Cbor.Fields.get?_text (by simp)
  unfold Image.FunctionRecord.ofCbor? texts
  rw [hfields]
  simp only [Option.bind_eq_bind, Option.bind_some, hname, hparams, hcaptures, get?_constants h,
    hcode, get?_locals, hfilename, get?_locations h, List.all_cons, List.all_append]
  cases Text.isValid f.name with
  | false => rfl
  | true =>
    cases (f.constants.map Constant.text).all Text.isValid with
    | false => simp
    | true =>
      cases f.locals.all Text.isValid with
      | false => simp
      | true =>
        cases Text.isValid f.filename with
        | false => rfl
        | true => rfl

/-- A function keeps to the limits exactly if its lists are short. -/
theorem within_item (f : Function) {depth : Nat} (h : depth + 3 ≤ Cbor.deepest) :
    Cbor.within depth f.item = decide f.Short := by
  have hconstants : (f.constants.all fun c => Cbor.within (depth + 1 + 1) c.item) = true :=
    List.all_eq_true.2 fun c _ => c.within_item (by omega)
  have hlocations : (f.locations.all fun l => Cbor.within (depth + 1 + 1) l.toCbor) = true :=
    List.all_eq_true.2 fun l _ => l.within_toCbor (by omega)
  have hlocals : (f.locals.all fun _ => true) = true := List.all_eq_true.2 fun _ _ => rfl
  have hcode : Cbor.within (depth + 1) f.codeItem = true := by
    unfold codeItem
    cases f.code with
    | none => rw [Cbor.null, Cbor.within]
    | some code => rw [Cbor.within]
  rw [item, Cbor.within_pairs (by omega) (by simp [entries])]
  have hdepth : depth + 1 + 1 ≤ Cbor.deepest := by omega
  simp only [entries, List.all_cons, List.all_nil, Cbor.within_ofInt, Cbor.within_ofText,
    Cbor.within_list hdepth, hconstants, hlocals, hlocations, hcode]
  rw [Bool.eq_iff_iff, decide_eq_true_iff]
  simp [Short]

theorem writable_item {f : Function} (h : f.Sized) : f.item.Writable := by
  have htext : ∀ t ∈ f.texts, (Cbor.ofText t).Writable := fun t ht => .text (h.texts t ht)
  have hcode : f.codeItem.Writable := by
    have hlen := h.code
    unfold codeItem bytes at *
    cases hc : f.code with
    | none => exact .simple (by decide)
    | some code => exact .bytes (by simpa [hc] using hlen)
  refine Cbor.writable_pairs (by simp [entries]) fun e he => ?_
  simp only [entries, List.mem_cons, List.not_mem_nil, or_false] at he
  rcases he with rfl | rfl | rfl | rfl | rfl | rfl | rfl | rfl
  · exact ⟨by simp, fun _ => htext _ (by simp [texts])⟩
  · exact ⟨by simp, fun _ => Cbor.writable_ofInt h.params⟩
  · exact ⟨by simp, fun _ => Cbor.writable_ofInt h.captures⟩
  · exact ⟨by simp, fun _ => Cbor.writable_list h.lengths.1 fun c hc =>
      Constant.writable_item (h.constants c hc)⟩
  · exact ⟨by simp, fun _ => hcode⟩
  · exact ⟨by simp, fun _ => Cbor.writable_list h.lengths.2.1 fun t ht =>
      htext t (by simp [texts, ht])⟩
  · exact ⟨by simp, fun _ => htext _ (by simp [texts])⟩
  · exact ⟨by simp, fun _ => Cbor.writable_list h.lengths.2.2 fun l hl =>
      SourceLocation.writable_toCbor (h.locations l hl)⟩

end Function
end StackLisp
