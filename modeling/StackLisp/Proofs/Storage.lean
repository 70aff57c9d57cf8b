import Mathlib.Data.List.Forall2
import StackLisp.Proofs.Copies
import StackLisp.Proofs.Records

/-! Images and units are read as they were written. Reading fails only for texts that are not valid
and for lists that are too long. -/
namespace StackLisp

open Text (lit)

/-! ### Versioned lists -/

namespace Cbor

/-- A list of items with the version of the format. -/
def versioned (items : List Cbor) : Cbor :=
  map [field 1 (ofInt formatVersion), field 2 (array items)]

def versionedEntries (items : List Cbor) : List Entry :=
  [⟨false, 1, ofInt formatVersion⟩, ⟨false, 2, array items⟩]

theorem versioned_eq (items : List Cbor) :
    versioned items = map (Entry.pairs (versionedEntries items)) := rfl

theorem toFields?_versioned (items : List Cbor) :
    toFields? (versioned items) = some (.of (versionedEntries items)) := by
  rw [versioned_eq]
  exact toFields?_pairs (by simp [versionedEntries])

theorem get?_version (items : List Cbor) :
    (Fields.of (versionedEntries items)).get? 1 0 toInt64? = some formatVersion := by
  rw [versionedEntries, Fields.get?_cons_self]
  exact toInt64?_ofInt (by decide)

theorem get?_items {α : Type} (read : Cbor → Option α) (items : List Cbor) :
    (Fields.of (versionedEntries items)).get? 2 [] (toList? read) = items.mapM read := by
  rw [versionedEntries, Fields.get?_cons_of_ne (by decide), Fields.get?_cons_self]
  exact toList?_array read items

theorem writable_versioned {items : List Cbor} (hlen : items.length < wordSize)
    (h : ∀ i ∈ items, i.Writable) : (versioned items).Writable := by
  have hversion : IsWord formatVersion := by decide
  rw [versioned_eq]
  refine writable_pairs (by simp [versionedEntries]) fun e he => ?_
  simp only [versionedEntries, List.mem_cons, List.not_mem_nil, or_false] at he
  rcases he with rfl | rfl
  · exact ⟨by simp, fun _ => writable_ofInt hversion⟩
  · exact ⟨by simp, fun _ => .array hlen h⟩

theorem within_versioned {items : List Cbor} {depth : Nat} (h : depth + 2 ≤ deepest) :
    within depth (versioned items) =
      (decide (items.length ≤ longest) && items.all (within (depth + 2))) := by
  have hdepth : depth + 1 + 1 ≤ deepest := by omega
  rw [versioned_eq, within_pairs (by omega) (by simp [versionedEntries])]
  simp [versionedEntries, within_ofInt, within, withinAll_eq, hdepth]

end Cbor

namespace Image

variable {img : Image}

/-- An image that can be written: its references make no cycles, the code is valid, and the
functions that the entry reaches have constants of known kinds and their locations in order. -/
structure Storable (img : Image) : Prop where
  ordered : img.Ordered
  nonempty : img.functions ≠ []
  valid : img.validate = .ok ()
  known : ∀ f, img.Holds f → .foreign ∉ f.constants
  sorted : ∀ f, img.Holds f → f.locations.Pairwise fun a b => a.offset ≤ b.offset

/-- The image is of a size that a machine can hold. -/
structure Sized (img : Image) : Prop where
  length : IsWord img.functions.length
  function : ∀ f, img.Holds f → f.Sized

/-- All texts in the functions that the entry reaches are valid. -/
def Legible (img : Image) : Prop := ∀ f, img.Holds f → ∀ t ∈ f.texts, Text.isValid t = true

/-- The lists in the image are no longer than can be read. -/
def Short (img : Image) : Prop :=
  img.flatten.length ≤ Cbor.longest ∧ ∀ f, img.Holds f → f.Short

/-! ### Functions in the order in which they are written -/

theorem texts_moved (order : List Nat) (f : Function) : (moved order f).texts = f.texts := by
  have htext : Constant.text ∘ relabel order = Constant.text := by
    funext c
    cases c <;> rfl
  simp [Function.texts, moved, htext]

theorem short_moved (order : List Nat) (f : Function) : (moved order f).Short ↔ f.Short := by
  simp [Function.Short, moved]

theorem sized_moved {order : List Nat} (horder : IsWord order.length) {f : Function}
    (h : f.Sized) : (moved order f).Sized := by
  refine ⟨?_, h.params, h.captures, fun c hc => ?_, h.code, h.locations, ?_⟩
  · rw [texts_moved]
    exact h.texts
  · obtain ⟨c, hmem, rfl⟩ := List.mem_map.1 hc
    have hsized := h.constants c hmem
    cases c with
    | value v => exact hsized
    | function i =>
      have hle : order.idxOf i ≤ order.length := List.idxOf_le_length
      unfold IsWord at horder
      show ((order.idxOf i : Nat) : Int) ≤ 0x7fffffffffffffff
      omega
    | foreign => exact hsized
  · rw [moved, List.length_map]
    exact h.lengths

theorem length_flatten_le (hordered : img.Ordered) (hne : img.functions ≠ []) :
    img.flatten.length ≤ img.functions.length := by
  have hsub : img.flatten ⊆ List.range img.functions.length := by
    intro i hi
    have hle := ((mem_flatten hordered.acyclic hne).1 hi).le hordered
    have hlt := entry_lt hne
    exact List.mem_range.2 (by omega)
  simpa using (topological_flatten hordered.acyclic hne).nodup.length_le_of_subset hsub

theorem mem_canonical_iff (hordered : img.Ordered) (hne : img.functions ≠ []) {g : Function} :
    g ∈ img.canonical.functions ↔ ∃ f, img.Holds f ∧ g = moved img.flatten f := by
  constructor
  · intro hg
    obtain ⟨i, f, hi, hf, rfl⟩ := mem_canonical hg
    exact ⟨f, ⟨i, (mem_flatten hordered.acyclic hne).1 hi, hf⟩, rfl⟩
  · rintro ⟨f, hf, rfl⟩
    exact List.mem_map.2 ⟨f, (mem_flattened hordered hne).2 hf, rfl⟩

theorem foreign_moved {order : List Nat} {f : Function} (h : .foreign ∉ f.constants) :
    .foreign ∉ (moved order f).constants := by
  intro hmem
  obtain ⟨c, hc, heq⟩ := List.mem_map.1 hmem
  cases c with
  | foreign => exact h hc
  | _ => cases heq

theorem constantsFrom_toRecord {f place : Nat} {cs : List Constant} (hknown : .foreign ∉ cs)
    (hearlier : ∀ j, .function j ∈ cs → j < f) :
    constantsFrom f place (cs.map Constant.toRecord) = .ok cs := by
  induction cs generalizing place with
  | nil => rfl
  | cons c cs ih =>
    have hfirst : c.toRecord.constant f place = .ok c :=
      Constant.constant_toRecord (fun hc => hknown (hc ▸ List.mem_cons_self))
        (fun j hj => hearlier j (hj ▸ List.mem_cons_self)) place
    rw [List.map_cons, constantsFrom, hfirst, ih (fun hc => hknown (List.mem_cons_of_mem _ hc))
      fun j hj => hearlier j (List.mem_cons_of_mem _ hj)]
    rfl

/-- Functions are rebuilt one after another, each from those before it. -/
theorem functionsFrom_toRecord {k : Nat} {fs : List Function}
    (hknown : ∀ f ∈ fs, .foreign ∉ f.constants)
    (hsorted : ∀ f ∈ fs, f.locations.Pairwise fun a b => a.offset ≤ b.offset)
    (hordered : ∀ p f, fs[p]? = some f → ∀ j ∈ f.references, j < k + p) :
    functionsFrom k (fs.map Function.toRecord) = .ok fs := by
  induction fs generalizing k with
  | nil => rfl
  | cons f fs ih =>
    have hconstants : constantsFrom k 0 (f.constants.map Constant.toRecord) = .ok f.constants := by
      refine constantsFrom_toRecord (hknown f List.mem_cons_self) fun j hj => ?_
      exact hordered 0 f rfl j (List.mem_filterMap.2 ⟨_, hj, rfl⟩)
    have hrest : functionsFrom (k + 1) (fs.map Function.toRecord) = .ok fs := by
      refine ih (fun g hg => hknown g (List.mem_cons_of_mem _ hg))
        (fun g hg => hsorted g (List.mem_cons_of_mem _ hg)) fun p g hg j hj => ?_
      have hlt := hordered (p + 1) g hg j hj
      omega
    have hnormal : f.normalize = f := by
      have hlocations : f.locations.mergeSort (fun a b => a.offset ≤ b.offset) = f.locations :=
        List.mergeSort_of_pairwise (by simpa using hsorted f List.mem_cons_self)
      rw [Function.normalize, hlocations]
    rw [List.map_cons, functionsFrom, Function.toRecord, hconstants, hrest]
    exact congrArg (fun g => Except.ok (g :: fs)) hnormal

/-! ### Images -/

/-- The item of an image. -/
def item (img : Image) : Cbor := .versioned (img.canonical.functions.map Function.item)

/-- What is read of an image whose texts are valid. -/
def toRecord (img : Image) : Record :=
  ⟨formatVersion, img.canonical.functions.map Function.toRecord⟩

def legible (img : Image) : Bool := img.canonical.functions.all fun f => f.texts.all Text.isValid

def short (img : Image) : Bool :=
  decide (img.canonical.functions.length ≤ Cbor.longest) &&
    img.canonical.functions.all fun f => decide f.Short

section
variable (h : img.Storable)
include h

theorem sized_canonical (hsized : img.Sized) {g : Function} (hg : g ∈ img.canonical.functions) :
    g.Sized := by
  obtain ⟨f, hf, rfl⟩ := (mem_canonical_iff h.ordered h.nonempty).1 hg
  refine sized_moved ?_ (hsized.function f hf)
  have hle := length_flatten_le h.ordered h.nonempty
  have hlength := hsized.length
  unfold IsWord at hlength ⊢
  omega

theorem known_canonical {g : Function} (hg : g ∈ img.canonical.functions) :
    .foreign ∉ g.constants := by
  obtain ⟨f, hf, rfl⟩ := (mem_canonical_iff h.ordered h.nonempty).1 hg
  exact foreign_moved (h.known f hf)

theorem legible_iff : img.legible = true ↔ img.Legible := by
  unfold legible Legible
  rw [List.all_eq_true]
  constructor
  · intro hall f hf t ht
    have hmoved := hall _ ((mem_canonical_iff h.ordered h.nonempty).2 ⟨f, hf, rfl⟩)
    rw [texts_moved] at hmoved
    exact List.all_eq_true.1 hmoved t ht
  · intro hall g hg
    obtain ⟨f, hf, rfl⟩ := (mem_canonical_iff h.ordered h.nonempty).1 hg
    rw [texts_moved]
    exact List.all_eq_true.2 (hall f hf)

theorem short_iff : img.short = true ↔ img.Short := by
  unfold short Short
  rw [Bool.and_eq_true, decide_eq_true_iff, List.all_eq_true,
    length_canonical h.ordered.acyclic h.nonempty]
  refine and_congr_right fun _ => ?_
  constructor
  · intro hall f hf
    have hmoved := hall _ ((mem_canonical_iff h.ordered h.nonempty).2 ⟨f, hf, rfl⟩)
    rw [decide_eq_true_iff, short_moved] at hmoved
    exact hmoved
  · intro hall g hg
    obtain ⟨f, hf, rfl⟩ := (mem_canonical_iff h.ordered h.nonempty).1 hg
    rw [decide_eq_true_iff, short_moved]
    exact hall f hf

theorem toCbor_eq : img.toCbor = .ok img.item := by
  unfold toCbor
  rw [List.mapM_eq_ok_map fun f hf => Function.toCbor_eq (known_canonical h hf)]
  rfl

theorem ofCbor?_item (hsized : img.Sized) :
    Record.ofCbor? img.item = if img.legible then some img.toRecord else none := by
  have hfunctions : (img.canonical.functions.map Function.item).mapM FunctionRecord.ofCbor? =
      if img.legible then some (img.canonical.functions.map Function.toRecord) else none :=
    List.mapM_map_ite fun f hf => Function.ofCbor?_item (sized_canonical h hsized hf)
  unfold Record.ofCbor? item
  rw [Cbor.toFields?_versioned]
  simp only [Option.bind_eq_bind, Option.bind_some, Cbor.get?_version, Cbor.get?_items, hfunctions]
  cases img.legible with
  | false => rfl
  | true => rfl

theorem ofRecord_toRecord : ofRecord img.toRecord = .ok img.canonical := by
  have hordered := ordered_canonical h.ordered.acyclic h.nonempty
  have hne : img.canonical.functions ≠ [] := by
    obtain ⟨front, hfront⟩ := flatten_eq_append h.nonempty
    rw [← List.length_pos_iff, length_canonical h.ordered.acyclic h.nonempty, hfront]
    simp
  have hfunctions : functionsFrom 0 img.toRecord.functions = .ok img.canonical.functions := by
    refine functionsFrom_toRecord (fun g hg => known_canonical h hg) (fun g hg => ?_)
      fun p g hg j hj => ?_
    · obtain ⟨f, hf, rfl⟩ := (mem_canonical_iff h.ordered h.nonempty).1 hg
      exact h.sorted f hf
    · rw [Nat.zero_add]
      exact hordered p g hg j hj
  have hsome : img.toRecord.functions.isEmpty = false := by
    simpa [toRecord] using hne
  unfold ofRecord
  rw [hfunctions, hsome]
  have hvalid := validate_canonical h.ordered h.nonempty h.valid
  simp [toRecord, hvalid, bind, Except.bind, pure, Except.pure, Except.mapError]

theorem writable_item (hsized : img.Sized) : img.item.Writable := by
  refine Cbor.writable_versioned ?_ fun i hi => ?_
  · have hle := length_flatten_le h.ordered h.nonempty
    have hlength := hsized.length
    unfold IsWord at hlength
    rw [List.length_map, length_canonical h.ordered.acyclic h.nonempty]
    unfold Cbor.wordSize
    omega
  · obtain ⟨f, hf, rfl⟩ := List.mem_map.1 hi
    exact Function.writable_item (sized_canonical h hsized hf)

end

theorem within_item (img : Image) {depth : Nat} (h : depth + 5 ≤ Cbor.deepest) :
    Cbor.within depth img.item = img.short := by
  have hfunctions : Cbor.within (depth + 2) ∘ Function.item = fun f => decide f.Short := by
    funext f
    exact f.within_item (by omega)
  rw [item, Cbor.within_versioned (by omega), List.all_map, hfunctions, List.length_map]
  rfl

/-- What is written of an image is read exactly if its texts are valid and its lists are short.
What is read are the reachable functions. -/
theorem ofBytes_encode (h : img.Storable) (hsized : img.Sized) :
    ofBytes (Cbor.encode img.item) =
      if img.short && img.legible then .ok img.canonical else .error .malformed := by
  unfold ofBytes
  rw [Cbor.read_encode (writable_item h hsized), within_item img (by decide)]
  cases img.short with
  | false => rfl
  | true =>
    rw [if_pos rfl, Option.bind_some, ofCbor?_item h hsized]
    cases img.legible with
    | false => rfl
    | true =>
      rw [if_pos rfl]
      dsimp only
      rw [ofRecord_toRecord h]
      rfl

theorem toBytes_eq (h : img.Storable) : img.toBytes = .ok (Cbor.encode img.item) := by
  rw [toBytes, toCbor_eq h]
  rfl

end Image

/-! ### Units -/

namespace CodeUnit

/-- All images of the unit can be written. -/
def Storable (u : CodeUnit) : Prop := ∀ img ∈ u, img.Storable

/-- The unit is of a size that a machine can hold. -/
structure Sized (u : CodeUnit) : Prop where
  length : IsWord u.length
  image : ∀ img ∈ u, img.Sized

/-- All texts in the unit are valid. -/
def Legible (u : CodeUnit) : Prop := ∀ img ∈ u, img.Legible

/-- The lists in the unit are no longer than can be read. -/
def Short (u : CodeUnit) : Prop := u.length ≤ Cbor.longest ∧ ∀ img ∈ u, img.Short

theorem formsToCbor_eq {i : Nat} {u : CodeUnit} (h : u.Storable) :
    formsToCbor i u = .ok (u.map Image.item) := by
  induction u generalizing i with
  | nil => rfl
  | cons img u ih =>
    rw [formsToCbor, Image.toCbor_eq (h img List.mem_cons_self),
      ih fun x hx => h x (List.mem_cons_of_mem _ hx)]
    rfl

theorem imagesFrom_toRecord {i : Nat} {u : CodeUnit} (h : u.Storable) :
    imagesFrom i (u.map fun img => some img.toRecord) = .ok (u.map Image.canonical) := by
  induction u generalizing i with
  | nil => rfl
  | cons img u ih =>
    rw [List.map_cons, imagesFrom, Image.ofRecord_toRecord (h img List.mem_cons_self),
      ih fun x hx => h x (List.mem_cons_of_mem _ hx)]
    rfl

theorem formOfCbor?_item {img : Image} (h : img.Storable) (hsized : img.Sized) :
    formOfCbor? img.item = if img.legible then some (some img.toRecord) else none := by
  have hnull : img.item.isNull = false := rfl
  rw [formOfCbor?, hnull, if_neg Bool.false_ne_true, Image.ofCbor?_item h hsized]
  cases img.legible with
  | false => rfl
  | true => rfl

/-- The item of a unit. -/
def item (u : CodeUnit) : Cbor := .versioned (u.map Image.item)

variable {u : CodeUnit}

theorem toBytes_eq (h : u.Storable) : u.toBytes = .ok (Cbor.encode u.item) := by
  rw [toBytes, formsToCbor_eq h]
  rfl

theorem ofCbor?_item (h : u.Storable) (hsized : u.Sized) :
    Record.ofCbor? u.item =
      if u.all Image.legible then some ⟨formatVersion, u.map fun img => some img.toRecord⟩
      else none := by
  have hforms : (u.map Image.item).mapM formOfCbor? =
      if u.all Image.legible then some (u.map fun img => some img.toRecord) else none :=
    List.mapM_map_ite fun img himg => formOfCbor?_item (h img himg) (hsized.image img himg)
  unfold Record.ofCbor? item
  rw [Cbor.toFields?_versioned]
  simp only [Option.bind_eq_bind, Option.bind_some, Cbor.get?_version, Cbor.get?_items, hforms]
  cases u.all Image.legible with
  | false => rfl
  | true => rfl

theorem writable_item (h : u.Storable) (hsized : u.Sized) : u.item.Writable := by
  refine Cbor.writable_versioned ?_ fun i hi => ?_
  · have hlength := hsized.length
    unfold IsWord at hlength
    unfold Cbor.wordSize
    rw [List.length_map]
    omega
  · obtain ⟨img, himg, rfl⟩ := List.mem_map.1 hi
    exact Image.writable_item (h img himg) (hsized.image img himg)

theorem within_item (u : CodeUnit) :
    Cbor.within 0 u.item = (decide (u.length ≤ Cbor.longest) && u.all Image.short) := by
  have himages : Cbor.within (0 + 2) ∘ Image.item = Image.short := by
    funext img
    exact img.within_item (by decide)
  rw [item, Cbor.within_versioned (by decide), List.all_map, himages, List.length_map]

/-- What is written of a unit is read exactly if its texts are valid and its lists are short. -/
theorem ofBytes_encode (h : u.Storable) (hsized : u.Sized) :
    ofBytes (Cbor.encode u.item) =
      if (decide (u.length ≤ Cbor.longest) && u.all Image.short) && u.all Image.legible then
        .ok (u.map Image.canonical)
      else .error .malformed := by
  unfold ofBytes
  rw [Cbor.read_encode (writable_item h hsized), within_item]
  cases decide (u.length ≤ Cbor.longest) && u.all Image.short with
  | false => rfl
  | true =>
    rw [if_pos rfl, Option.bind_some, ofCbor?_item h hsized]
    cases u.all Image.legible with
    | false => rfl
    | true =>
      rw [if_pos rfl]
      dsimp only
      rw [if_neg (by simp), imagesFrom_toRecord h]
      rfl

theorem readable_iff (h : u.Storable) :
    ((decide (u.length ≤ Cbor.longest) && u.all Image.short) && u.all Image.legible) = true ↔
      u.Short ∧ u.Legible := by
  unfold Short Legible
  simp only [Bool.and_eq_true, decide_eq_true_iff, List.all_eq_true]
  refine and_congr (and_congr_right fun _ => ?_) ?_
  · exact forall₂_congr fun img himg => Image.short_iff (h img himg)
  · exact forall₂_congr fun img himg => Image.legible_iff (h img himg)

theorem forall₂_same_canonical (h : u.Storable) :
    List.Forall₂ Image.Same u (u.map Image.canonical) := by
  rw [List.forall₂_map_right_iff, List.forall₂_same]
  exact fun img himg => Image.same_canonical (h img himg).ordered (h img himg).nonempty

/-- Storable units are read back as they were, and so is every image by itself. -/
theorem ofBytes_toBytes :
    (∀ img : Image, img.Storable → img.Sized → img.Short → img.Legible →
      ∃ data copy, img.toBytes = .ok data ∧ Image.ofBytes data = .ok copy ∧ img.Same copy) ∧
    ∀ u : CodeUnit, u.Storable → u.Sized → u.Short → u.Legible →
      ∃ data copies, u.toBytes = .ok data ∧ ofBytes data = .ok copies ∧
        List.Forall₂ Image.Same u copies := by
  constructor
  · intro img h hsized hshort hlegible
    refine ⟨_, img.canonical, Image.toBytes_eq h, ?_, Image.same_canonical h.ordered h.nonempty⟩
    rw [Image.ofBytes_encode h hsized, (Image.short_iff h).2 hshort,
      (Image.legible_iff h).2 hlegible]
    rfl
  · intro u h hsized hshort hlegible
    refine ⟨_, _, toBytes_eq h, ?_, forall₂_same_canonical h⟩
    rw [ofBytes_encode h hsized, if_pos ((readable_iff h).2 ⟨hshort, hlegible⟩)]

end CodeUnit

/-- An image with a constant of each kind. A closure is shared by three pool entries, and the first
function is not reached. -/
def Image.shelf : Image :=
  ⟨[{ name := lit "unused" },
    { name := lit "λ", params := 1, captures := 1, code := some [1, 87], locals := [lit "a", lit "b"],
      filename := lit "shelf", locations := [⟨0, 1, 9⟩, ⟨1, 1, 2⟩] },
    { code := some [72, 0, 1, 87], constants := [.function 1] },
    { code := some [87], constants := [.function 1, .function 2, .function 1, .value .unit,
      .value (.bool true), .value (.int 1), .value (.float ⟨0x3ff0000000000000⟩),
      .value (.float ⟨0⟩), .value (.float ⟨0x8000000000000000⟩), .value (.string (lit "é")),
      .value (.char 955), .value (.name (lit "x"))] }]⟩

theorem Image.storable_shelf : shelf.Storable := by
  have hordered : shelf.Ordered := by
    have hall : ∀ i (h : i < shelf.functions.length), ∀ j ∈ shelf.functions[i].references, j < i := by
      decide
    intro i f hf j hj
    obtain ⟨hi, rfl⟩ := List.getElem?_eq_some_iff.1 hf
    exact hall i hi j hj
  have hall : ∀ f ∈ shelf.functions, .foreign ∉ f.constants ∧
      (f.locations.Pairwise fun a b => a.offset ≤ b.offset) ∧
      shelf.checkFunction f = .ok () := by
    decide
  refine ⟨hordered, by decide, ?_, fun f hf => (hall f hf.mem).1, fun f hf => (hall f hf.mem).2.1⟩
  refine validate_ok_iff.2 fun f hf => ?_
  exact (hall f ((mem_flattened hordered (by decide)).1 hf).mem).2.2

theorem CodeUnit.shelves_stored :
    (∃ data copy, Image.shelf.toBytes = .ok data ∧ Image.ofBytes data = .ok copy ∧
      Image.shelf.Same copy) ∧
    ∃ data copies, toBytes [.shelf, .shelf] = .ok data ∧ ofBytes data = .ok copies ∧
      List.Forall₂ Image.Same [.shelf, .shelf] copies := by
  have hstorable := Image.storable_shelf
  have hall : ∀ f ∈ Image.shelf.functions, f.Sized ∧ f.Short ∧
      ∀ t ∈ f.texts, Text.isValid t = true := by
    decide
  have hsized : Image.shelf.Sized := ⟨by decide, fun f hf => (hall f hf.mem).1⟩
  have hlegible : Image.shelf.Legible := fun f hf => (hall f hf.mem).2.2
  have hshort : Image.shelf.Short := by
    have hle := Image.length_flatten_le hstorable.ordered hstorable.nonempty
    exact ⟨Nat.le_trans hle (by decide), fun f hf => (hall f hf.mem).2.1⟩
  refine ⟨ofBytes_toBytes.1 _ hstorable hsized hshort hlegible,
    ofBytes_toBytes.2 _ ?_ ⟨by decide, ?_⟩ ⟨by decide, ?_⟩ ?_⟩
  · simpa [Storable] using hstorable
  · simpa using hsized
  · simpa using hshort
  · simpa [Legible] using hlegible

end StackLisp
