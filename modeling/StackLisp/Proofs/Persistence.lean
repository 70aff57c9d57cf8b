import StackLisp.Proofs.Extent
import StackLisp.Proofs.Provenance
import StackLisp.Proofs.Storage
import StackLisp.Proofs.WellFormed

/-! Compiled forms can be written, and what was written is read back exactly if its texts are valid
and its lists are short. The texts are valid if the names in the program are. -/
namespace StackLisp

open Lower

/-! ### Compiled functions can be written -/

/-- Locations follow the code that they belong to. -/
theorem Fragment.locationsFrom_sorted (offset : Nat) (items : List Item) :
    ((locationsFrom offset items).Pairwise fun a b => a.offset ≤ b.offset) ∧
      ∀ l ∈ locationsFrom offset items, (offset : Int) ≤ l.offset := by
  fun_induction locationsFrom offset items with
  | case1 => simp
  | case2 offset i rest ih =>
    refine ⟨ih.1, fun l hl => ?_⟩
    have hle := ih.2 l hl
    omega
  | case3 offset p q rest ih => exact ih
  | case4 offset p rest _ ih =>
    refine ⟨.cons ih.2 ih.1, fun l hl => ?_⟩
    rcases List.mem_cons.1 hl with rfl | hl
    · exact Int.le_refl _
    · exact ih.2 l hl

theorem Fragment.locations_sorted (f : Fragment) :
    f.locations.Pairwise fun a b => a.offset ≤ b.offset :=
  (locationsFrom_sorted 0 f.items).1

/-- The constants are of known kinds, and locations stand in order. -/
structure Function.Tidy (f : Function) : Prop where
  known : .foreign ∉ f.constants
  sorted : f.locations.Pairwise fun a b => a.offset ≤ b.offset

structure Draft.Tidy (d : Draft) : Prop where
  known : .foreign ∉ d.pool
  functions : ∀ f ∈ d.functions, f.Tidy

theorem Draft.kept_tidy : Draft.Kept fun d d' => d.Tidy → d'.Tidy where
  refl _ h := h
  trans h h' hd := h' (h hd)
  slots _ _ h := ⟨h.known, h.functions⟩
  intern h hd := by
    obtain ⟨-, hfunctions, hpool⟩ := h.interned
    refine ⟨fun hmem => ?_, hfunctions ▸ hd.functions⟩
    rcases hpool with hp | ⟨-, hp⟩
    · exact hd.known (hp ▸ hmem)
    · rw [hp, List.mem_append, List.mem_singleton] at hmem
      exact hd.known (hmem.resolve_right nofun)
  function _ _ ih _ hd := by
    have hinner := ih ⟨nofun, hd.functions⟩
    refine ⟨fun hmem => ?_, fun f hf => ?_⟩
    · rw [List.mem_append, List.mem_singleton] at hmem
      exact hd.known (hmem.resolve_right nofun)
    · rcases List.mem_append.1 hf with hf | hf
      · exact hinner.functions f hf
      · obtain rfl := List.mem_singleton.1 hf
        exact ⟨hinner.known, Fragment.locations_sorted _⟩

namespace Compilation

variable {options : CompileOptions} {env : Environment} {c : Compilation}

theorem Compiles.tidy {k : Nat} {ctx : Context} {e : Expr} {img : Image}
    (h : Compiles options k ctx e img) : ∀ f ∈ img.functions, f.Tidy := by
  obtain ⟨f, d, hf, rfl⟩ := h.emits
  have hdraft : d.Tidy := hf.kept Draft.kept_tidy ⟨nofun, nofun⟩
  intro g hg
  rcases List.mem_append.1 hg with hg | hg
  · exact hdraft.functions g hg
  · obtain rfl := List.mem_singleton.1 hg
    exact ⟨hdraft.known, Fragment.locations_sorted _⟩

theorem Compiles.storable {k : Nat} {ctx : Context} {e : Expr} {img : Image}
    (h : Compiles options k ctx e img) : img.Storable := by
  have hassembled := h.assembled
  have htidy := h.tidy
  refine ⟨hassembled.ordered, ?_, Image.validate_ok fun f hf => hassembled.wellFormed hf,
    fun f hf => (htidy f hf.mem).known, fun f hf => (htidy f hf.mem).sorted⟩
  obtain ⟨f, d, -, rfl⟩ := h.emits
  simp

/-- All images that are compiled can be written. -/
theorem compile_storable {forms : List Expr} (h : compile options env forms = .ok c) :
    CodeUnit.Storable c.images := by
  intro img himg
  obtain ⟨k, hk⟩ := List.mem_iff_getElem?.1 himg
  obtain ⟨e, ctx, -, hform⟩ := (compiles_compile h).2 k img hk
  exact hform.storable

/-- Images are made from the places of the forms. -/
theorem compile_within {forms : List Expr} (h : compile options env forms = .ok c) :
    ∀ img ∈ c.images, ∃ e ∈ forms, (∀ f ∈ img.functions, f.Within e.places) ∧
      img.functions.length ≤ e.size + 1 := by
  intro img himg
  obtain ⟨k, hk⟩ := List.mem_iff_getElem?.1 himg
  obtain ⟨e, ctx, he, hform⟩ := (compiles_compile h).2 k img hk
  obtain ⟨f, d, hf, rfl⟩ := hform.emits
  obtain ⟨hwithin, hcount⟩ := hf.within
  refine ⟨e, List.mem_of_getElem? he, hwithin, ?_⟩
  rw [List.length_append]
  exact Nat.succ_le_succ hcount

end Compilation

theorem Image.Holds.reference_lt {img : Image} {f : Function} (hf : img.Holds f)
    (hordered : img.Ordered) {j : Nat} (hj : .function j ∈ f.constants) :
    j < img.functions.length := by
  obtain ⟨i, -, hi⟩ := hf
  have hlt := hordered i f hi j (List.mem_filterMap.2 ⟨_, hj, rfl⟩)
  exact Nat.lt_trans hlt (List.getElem?_eq_some_iff.1 hi).1

/-! ### Programs of moderate length -/

/-- A text that can be written and read. -/
def Text.Storable (t : Bytes) : Prop := Text.isValid t = true ∧ t.length < Cbor.wordSize

theorem Text.storable_nil : Storable [] := ⟨rfl, by decide⟩

/-- The names in a text are valid. -/
def Program.LegibleNames (options : ReadOptions) (source : Bytes) : Prop :=
  ∀ t ∈ (Token.scan options.filename source).list,
    t.kind = .ident → Text.isValid t.literal = true

section
variable {reading : ReadOptions} {source : Bytes}

theorem Program.read_legible (hnames : LegibleNames reading source) :
    ∀ e ∈ (read reading source).forms, e.Texts fun t => Text.isValid t = true := by
  refine read_texts Text.storable_nil.1 fun t ht hkind => ?_
  rcases hkind with hkind | hkind
  · exact Token.isValid_string _ _ t ht hkind
  · exact hnames t ht hkind

theorem Program.read_short (hlen : source.length < Cbor.longest) :
    ∀ e ∈ (read reading source).forms, e.Texts fun t => t.length < Cbor.wordSize := by
  refine read_texts Text.storable_nil.2 fun t ht hkind => ?_
  have hchar : t.kind ≠ .char := by
    rcases hkind with hkind | hkind <;> simp [hkind]
  have hle := Token.length_literal_le _ _ t ht hchar
  have hword : 4 * Cbor.longest < Cbor.wordSize := by decide
  omega

theorem Program.length_forms_le (reading : ReadOptions) (source : Bytes) :
    (read reading source).forms.length ≤ source.length := by
  have hplaces := (read_places reading source).length_le
  have hforms := Expr.length_le_sizeAll (read reading source).forms
  rw [List.length_map] at hplaces
  exact Nat.le_trans hforms (Nat.le_trans hplaces (Token.length_scan_le _ _))

/-- A form has no more expressions than the text has bytes, and they stand in it. -/
theorem Program.read_within {e : Expr} (he : e ∈ (read reading source).forms) :
    e.size ≤ source.length ∧ ∀ p ∈ e.places, p.Within source.length := by
  have hplaces := (Expr.places_sublist he).trans (read_places reading source)
  have htokens := Token.length_scan_le reading.filename source
  constructor
  · have hlen := hplaces.length_le
    rw [List.length_map] at hlen
    exact Nat.le_trans hlen htokens
  · intro p hp
    obtain ⟨t, ht, rfl⟩ := List.mem_map.1 (hplaces.subset hp)
    exact Token.within_start _ _ t ht

end

/-! ### Compiled programs are read back -/

theorem Function.Within.short {ps : List Position} {f : Function} (h : f.Within ps)
    (hlen : ps.length ≤ Cbor.longest) : f.Short := by
  have hconstants : Limit.constants ≤ Cbor.longest := by decide
  have hslots : Limit.slots ≤ Cbor.longest := by decide
  exact ⟨Nat.le_trans h.constants hconstants, Nat.le_trans h.locals hslots,
    Nat.le_trans h.locations hlen⟩

theorem Function.Within.sized {ps : List Position} {f : Function} (h : f.Within ps)
    (hlen : ps.length < Cbor.longest) (hplaces : ∀ p ∈ ps, p.Within Cbor.longest)
    (htexts : ∀ t ∈ f.texts, t.length < Cbor.wordSize)
    (hreferences : ∀ j, .function j ∈ f.constants → j ≤ Cbor.longest) : f.Sized := by
  have hlongest : Cbor.longest = 131072 := rfl
  have hword : Cbor.wordSize = 18446744073709551616 := rfl
  have hslots : Limit.slots = 256 := rfl
  have hcode := h.code
  obtain ⟨hconstants, hlocals, hlocations⟩ := h.short (Nat.le_of_lt hlen)
  refine ⟨htexts, ?_, ?_, fun k hk => ?_, by omega, fun l hl => ?_, by omega, by omega, by omega⟩
  · have hparams := h.params
    unfold IsWord
    omega
  · have hcaptures := h.captures
    unfold IsWord
    omega
  · cases k with
    | value v =>
      refine htexts v.text ?_
      unfold Function.texts
      exact List.mem_append_right _ (List.mem_map.2 ⟨_, hk, rfl⟩)
    | function j =>
      have hle := hreferences j hk
      show (j : Int) ≤ 0x7fffffffffffffff
      omega
    | foreign => trivial
  · obtain ⟨hoffset, p, hp, hline, hcolumn⟩ := h.place l hl
    have hplace := hplaces p hp
    unfold Position.Within at hplace
    unfold SourceLocation.Sized IsWord
    rw [hline, hcolumn, Position.lineNumber, Position.columnNumber]
    omega

namespace Compilation

variable {options : CompileOptions} {env : Environment} {c : Compilation} {reading : ReadOptions}
  {source : Bytes}

theorem compile_short (h : compile options env (Program.read reading source).forms = .ok c)
    (hlen : source.length < Cbor.longest) : CodeUnit.Short c.images := by
  have hforms := Program.length_forms_le reading source
  refine ⟨?_, fun img himg => ?_⟩
  · rw [(compiles_compile h).1]
    omega
  · obtain ⟨e, he, hwithin, hcount⟩ := compile_within h img himg
    have hsize := (Program.read_within he).1
    have hstorable := compile_storable h img himg
    have hflat := Image.length_flatten_le hstorable.ordered hstorable.nonempty
    exact ⟨by omega, fun f hf => (hwithin f hf.mem).short (by unfold Expr.size at hsize; omega)⟩

theorem compile_sized (h : compile options env (Program.read reading source).forms = .ok c)
    (hlen : source.length < Cbor.longest) (hfile : options.filename.length < Cbor.wordSize)
    (henv : env.Texts fun t => t.length < Cbor.wordSize) : CodeUnit.Sized c.images := by
  have hlongest : Cbor.longest = 131072 := rfl
  have hforms := Program.length_forms_le reading source
  have htexts := compile_texts Text.storable_nil.2 h hfile henv (Program.read_short hlen)
  refine ⟨?_, fun img himg => ?_⟩
  · rw [(compiles_compile h).1]
    unfold IsWord
    omega
  · obtain ⟨e, he, hwithin, hcount⟩ := compile_within h img himg
    obtain ⟨hsize, hplaces⟩ := Program.read_within he
    have hstorable := compile_storable h img himg
    refine ⟨?_, fun f hf => ?_⟩
    · unfold IsWord
      omega
    · refine (hwithin f hf.mem).sized (by unfold Expr.size at hsize; omega) (fun p hp => ?_)
        (htexts img himg f hf.mem) fun j hj => ?_
      · have hplace := hplaces p hp
        unfold Position.Within at hplace ⊢
        omega
      · have hlt := hf.reference_lt hstorable.ordered hj
        omega

theorem compile_legible (h : compile options env (Program.read reading source).forms = .ok c)
    (hfile : Text.isValid options.filename = true)
    (henv : env.Texts fun t => Text.isValid t = true)
    (hnames : Program.LegibleNames reading source) : CodeUnit.Legible c.images := by
  have htexts := compile_texts Text.storable_nil.1 h hfile henv (Program.read_legible hnames)
  exact fun img himg f hf t ht => htexts img himg f hf.mem t ht

/-- What is compiled from a text can be written. It is read back as it was if the text is of
moderate length and its names are valid, whatever stands in its strings and comments. In general
it is read back if its own texts are valid and its lists are short, and refused otherwise. -/
theorem compile_persists (h : compile options env (Program.read reading source).forms = .ok c) :
    (∃ data, CodeUnit.toBytes c.images = .ok data ∧
      (source.length < Cbor.longest → Text.Storable options.filename → env.Texts Text.Storable →
        Program.LegibleNames reading source →
        ∃ copies, CodeUnit.ofBytes data = .ok copies ∧ List.Forall₂ Image.Same c.images copies) ∧
      (CodeUnit.Sized c.images →
        (CodeUnit.Short c.images ∧ CodeUnit.Legible c.images →
          ∃ copies, CodeUnit.ofBytes data = .ok copies ∧
            List.Forall₂ Image.Same c.images copies) ∧
        (¬ (CodeUnit.Short c.images ∧ CodeUnit.Legible c.images) →
          CodeUnit.ofBytes data = .error .malformed))) ∧
    (Text.isValid source = true → Program.LegibleNames reading source) := by
  have hstorable := compile_storable h
  have hreads : CodeUnit.Sized c.images → CodeUnit.Short c.images ∧ CodeUnit.Legible c.images →
      ∃ copies, CodeUnit.ofBytes (Cbor.encode (CodeUnit.item c.images)) = .ok copies ∧
        List.Forall₂ Image.Same c.images copies := by
    intro hsized hreadable
    refine ⟨_, ?_, CodeUnit.forall₂_same_canonical hstorable⟩
    rw [CodeUnit.ofBytes_encode hstorable hsized,
      if_pos ((CodeUnit.readable_iff hstorable).2 hreadable)]
  refine ⟨⟨_, CodeUnit.toBytes_eq hstorable, ?_, fun hsized => ⟨hreads hsized, ?_⟩⟩,
    Token.isValid_ident _⟩
  · intro hlen hfile henv hnames
    have hsized := compile_sized h hlen hfile.2 fun n v hv => (henv n v hv).2
    have hlegible := compile_legible h hfile.1 (fun n v hv => (henv n v hv).1) hnames
    exact hreads hsized ⟨compile_short h hlen, hlegible⟩
  · intro hunreadable
    rw [CodeUnit.ofBytes_encode hstorable hsized,
      if_neg fun hall => hunreadable ((CodeUnit.readable_iff hstorable).1 hall)]

end Compilation

/-- A program with bytes that are no text in a comment and in a string. -/
def Program.greeting : Bytes :=
  Text.lit "; " ++ [0xff] ++ Text.lit "\n(define greet (lambda (x) (if x \"" ++ [0xff] ++
    Text.lit "\" (greet x))))"

/-- The name that is defined is no valid text. -/
def Program.illegibleName : Bytes := Text.lit "(define " ++ [0xff] ++ Text.lit " 1)"

namespace Compilation

theorem greeting_persists :
    Text.isValid Program.greeting = false ∧ (Program.read {} Program.greeting).faults = [] ∧
    ∃ c data copies, compile {} {} (Program.read {} Program.greeting).forms = .ok c ∧
      CodeUnit.toBytes c.images = .ok data ∧ CodeUnit.ofBytes data = .ok copies ∧
      List.Forall₂ Image.Same c.images copies := by
  refine ⟨by decide +kernel, by decide +kernel, ?_⟩
  have hnames : Program.LegibleNames {} Program.greeting := by
    unfold Program.LegibleNames
    decide +kernel
  have hcompiles : (compile {} {} (Program.read {} Program.greeting).forms).toOption.isSome := by
    decide +kernel
  cases h : compile {} {} (Program.read {} Program.greeting).forms with
  | error r =>
    rw [h] at hcompiles
    cases hcompiles
  | ok c =>
    obtain ⟨⟨data, hdata, hback, -⟩, -⟩ := compile_persists h
    obtain ⟨copies, hcopies, hsame⟩ := hback (by decide) Text.storable_nil nofun hnames
    exact ⟨c, data, copies, rfl, hdata, hcopies, hsame⟩

theorem illegibleName_refused :
    (Program.read {} Program.illegibleName).faults = [] ∧
    ((compile {} {} (Program.read {} Program.illegibleName).forms).toOption.map fun c =>
      (CodeUnit.toBytes c.images).map CodeUnit.ofBytes) = some (.ok (.error .malformed)) := by
  decide +kernel

end Compilation
end StackLisp
