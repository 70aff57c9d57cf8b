import StackLisp.Proofs.Batches
import StackLisp.Proofs.Grammar
import StackLisp.Proofs.Keys
import StackLisp.Proofs.Persistence

/-! Builds that use a cache. A run of builds and prunes on one cache gives what compiling gives each
time, as far as keys tell requests apart. -/
namespace StackLisp

/-! ### What another limit on depth changes -/

theorem Datum.readWithin_mono {limit limit' : Int} (hle : limit ≤ limit') {ending : Ending}
    {levels : List Level} {ts rest : List Token} {d : Datum}
    (h : readWithin limit ending levels ts = .ok (d, rest)) :
    readWithin limit' ending levels ts = .ok (d, rest) := by
  fun_induction readWithin limit ending levels ts with
  | case1 | case2 | case4 | case5 => cases h
  | case3 levels t ts hk hdepth ih =>
    rw [readWithin_opening hk (by omega)]
    exact ih h
  | case6 t ts hk l d =>
    rw [readWithin, hk]
    exact h
  | case7 t ts hk l d m outer ih =>
    rw [readWithin_closing hk]
    exact ih h
  | case8 t ts hopening hquote hclosing =>
    rw [readWithin]
    cases hk : t.kind <;> first | exact absurd hk ‹_› | exact h
  | case9 t ts l outer hopening hquote hclosing ih =>
    rw [readWithin_atom ⟨hopening, hquote, hclosing⟩]
    exact ih h

/-- What is read without a fault is read in the same way under a larger limit. -/
theorem Program.readFrom_mono {limit limit' : Int} (hle : limit ≤ limit') {ending : Ending}
    {found : Nat} {ts : List Token} (h : (readFrom limit ending found ts).faults = []) :
    readFrom limit' ending found ts = readFrom limit ending found ts := by
  fun_induction readFrom limit ending found ts with
  | case1 found place hending => rw [hending, readFrom]
  | case2 | case4 | case5 => cases h
  | case3 found t rest hmany => rw [readFrom, if_pos hmany]
  | case6 found t rest hfew d left hread e he p ih =>
    have hread' := Datum.readWithin_mono hle hread
    rw [readFrom, if_neg hfew]
    split
    · next hfails => cases hfails.symm.trans hread'
    · next hreads =>
      cases hreads.symm.trans hread'
      rw [he]
      dsimp only
      rw [ih h]

/-- A text that two limits allow has the same forms under both. -/
theorem Program.forms_eq_of_faults {filename source : Bytes} {m n : Int}
    (hm : (read ⟨filename, m⟩ source).faults = []) (hn : (read ⟨filename, n⟩ source).faults = []) :
    (read ⟨filename, m⟩ source).forms = (read ⟨filename, n⟩ source).forms := by
  rcases Int.le_total m n with hle | hle
  · exact congrArg Program.forms (readFrom_mono hle hm).symm
  · exact congrArg Program.forms (readFrom_mono hle hn)

/-! ### What other settings change -/

namespace Settings

/-- The names of the host are the same, in whatever order and number. -/
def SameGlobals (s t : Settings) : Prop := ∀ n, n ∈ s.globals ↔ n ∈ t.globals

/-- All files can be read under the limit that is set. -/
def ReadsAll (s : Settings) (files : List SourceFile) : Prop :=
  ∀ f ∈ files, (Program.read (s.readOptions f) f.text).faults = []

instance (s : Settings) (files : List SourceFile) : Decidable (s.ReadsAll files) :=
  inferInstanceAs (Decidable (∀ f ∈ files, _ = _))

end Settings

namespace Compilation

variable {s t : Settings} {f : SourceFile} {env : Environment} {c : Compilation}

/-- Compiled code depends on the set of the names of the host only. -/
theorem formsFrom_of_sameGlobals (hglobals : s.SameGlobals t) (hlate : s.lateBinding = t.lateBinding)
    {declared : List (Bytes × Nat)} {index : Nat} {forms : List Expr}
    (h : (formsFrom (s.compileOptions f) declared env index forms).1 = .ok c) :
    (formsFrom (t.compileOptions f) declared env index forms).1 = .ok c := by
  induction forms generalizing env index c with
  | nil => exact h
  | cons e rest ih =>
    obtain ⟨img, env₁, c₁, hform, hrest, rfl⟩ := formsFrom_cons.1 h
    have hweaker : Context.Weaker { options := s.compileOptions f, env, declared, form := index }
        { options := t.compileOptions f, env, declared, form := index } :=
      ⟨⟨rfl, rfl, rfl⟩, hglobals, rfl, rfl, fun hl => hlate.symm.trans hl, fun _ => id⟩
    have hform' := form_of_served hweaker.toTwin
      (formServed_of_serving Context.Weaker.serving hweaker e) hform
    exact formsFrom_cons.2 ⟨img, env₁, c₁, hform', ih hrest, rfl⟩

theorem compile_of_sameGlobals (hglobals : s.SameGlobals t) (hlate : s.lateBinding = t.lateBinding)
    {forms : List Expr} (h : compile (s.compileOptions f) env forms = .ok c) :
    compile (t.compileOptions f) env forms = .ok c := by
  obtain ⟨declared, hdeclared, hforms⟩ := compile_eq_ok.1 h
  exact compile_eq_ok.2 ⟨declared, hdeclared, formsFrom_of_sameGlobals hglobals hlate hforms⟩

end Compilation

namespace Build

open Text (lit)

variable {s t : Settings} {f : SourceFile} {files : List SourceFile} {env : Environment}
  {u : CodeUnit}

theorem file_eq_ok {c : Compilation} :
    file s env f = .ok c ↔
      (Program.read (s.readOptions f) f.text).faults = [] ∧
        Compilation.compile (s.compileOptions f) env (Program.read (s.readOptions f) f.text).forms =
          .ok c := by
  unfold file
  cases hfaults : (Program.read (s.readOptions f) f.text).faults with
  | cons fault faults => simp [hfaults, throw, throwThe, MonadExceptOf.throw, bind, Except.bind]
  | nil =>
    cases hcompile : Compilation.compile (s.compileOptions f) env
        (Program.read (s.readOptions f) f.text).forms with
    | error r => simp [hfaults, hcompile, Except.mapError]
    | ok c' => simp [hfaults, hcompile, Except.mapError]

theorem unitFrom_cons {rest : List SourceFile} :
    unitFrom s env (f :: rest) = .ok u ↔
      ∃ c more, file s env f = .ok c ∧ unitFrom s c.env rest = .ok more ∧ u = c.images ++ more := by
  constructor
  · intro h
    obtain ⟨c, hc, hrest⟩ := Except.ok_of_bind h
    obtain ⟨more, hmore, hu⟩ := Except.ok_of_bind hrest
    cases hu
    exact ⟨c, more, hc, hmore, rfl⟩
  · rintro ⟨c, more, hc, hmore, rfl⟩
    rw [unitFrom, hc]
    show (unitFrom s c.env rest >>= fun more => pure (c.images ++ more)) = _
    rw [hmore]
    rfl

/-- Code that some settings give is what others give that name the same globals and let all files be
read. -/
theorem unitFrom_of_sameGlobals (hglobals : s.SameGlobals t) (hlate : s.lateBinding = t.lateBinding)
    (hreads : t.ReadsAll files) (h : unitFrom s env files = .ok u) :
    unitFrom t env files = .ok u := by
  induction files generalizing env u with
  | nil => exact h
  | cons f rest ih =>
    obtain ⟨c, more, hfile, hrest, rfl⟩ := unitFrom_cons.1 h
    obtain ⟨hfaults, hcompile⟩ := file_eq_ok.1 hfile
    obtain ⟨hfaults', hreads'⟩ := List.forall_mem_cons.1 hreads
    have hforms : (Program.read (t.readOptions f) f.text).forms =
        (Program.read (s.readOptions f) f.text).forms :=
      Program.forms_eq_of_faults hfaults' hfaults
    refine unitFrom_cons.2 ⟨c, more, file_eq_ok.2 ⟨hfaults', ?_⟩, ih hreads' hrest, rfl⟩
    rw [hforms]
    exact Compilation.compile_of_sameGlobals hglobals hlate hcompile

/-- Files that were compiled can be read under any larger limit. -/
theorem readsAll_of_unitFrom (hdepth : s.depth ≤ t.depth) (h : unitFrom s env files = .ok u) :
    t.ReadsAll files := by
  induction files generalizing env u with
  | nil => exact List.forall_mem_nil _
  | cons f rest ih =>
    obtain ⟨c, more, hfile, hrest, rfl⟩ := unitFrom_cons.1 h
    have hfaults := (file_eq_ok.1 hfile).1
    refine List.forall_mem_cons.2 ⟨?_, ih hrest⟩
    exact (congrArg Program.faults (Program.readFrom_mono hdepth hfaults)).trans hfaults

theorem unitFrom_storable (h : unitFrom s env files = .ok u) : u.Storable := by
  induction files generalizing env u with
  | nil =>
    cases h
    exact nofun
  | cons f rest ih =>
    obtain ⟨c, more, hfile, hrest, rfl⟩ := unitFrom_cons.1 h
    intro img himg
    rcases List.mem_append.1 himg with himg | himg
    · exact Compilation.compile_storable (file_eq_ok.1 hfile).2 img himg
    · exact ih hrest img himg

/-! ### Runs -/

/-- What is asked of a build, and how the artifact is marked that it stores. -/
structure Request where
  settings : Settings
  files : List SourceFile
  label : Bytes
  stamp : Stamp

namespace Request

/-- What is compiled without a cache. -/
def unit (r : Request) : Except (List Diagnostic) CodeUnit := Build.unit r.settings r.files

def key (r : Request) : Bytes := Build.key r.settings r.files

def keyText (r : Request) : Bytes := Cache.keyText r.files r.settings.toTexts

/-- What the earlier request stores under a common key is right for the later one. The key leaves out
the limit on depth, and does not show where a name ends that has a comma in it. -/
def Foretells (earlier later : Request) : Prop :=
  earlier.keyText = later.keyText → (∃ u, earlier.unit = .ok u) →
    (((∀ n ∈ earlier.settings.globals, Text.Separable n) ∧
        ∀ n ∈ later.settings.globals, Text.Separable n) ∨
      earlier.settings.SameGlobals later.settings) ∧
    (earlier.settings.depth ≤ later.settings.depth ∨ later.settings.ReadsAll later.files)

/-- What is read of the unit that is compiled, if it is read at all, is the same unit. -/
def Copied (r : Request) : Prop :=
  ∀ u data copies, r.unit = .ok u → u.toBytes = .ok data → CodeUnit.ofBytes data = .ok copies →
    List.Forall₂ Image.Same u copies

theorem unit_of_foretells {r₁ r₂ : Request} (h : r₁.Foretells r₂) (htext : r₁.keyText = r₂.keyText)
    {u : CodeUnit} (hunit : r₁.unit = .ok u) : r₂.unit = .ok u := by
  obtain ⟨hfiles, hglobals, hlate⟩ := Settings.keyText_eq_iff.1 htext
  obtain ⟨hnames, hdepth⟩ := h htext ⟨u, hunit⟩
  have hsame : r₁.settings.SameGlobals r₂.settings := by
    rcases hnames with ⟨hnames₁, hnames₂⟩ | hsame
    · exact Settings.mem_globals_of_globalsText hnames₁ hnames₂ hglobals
    · exact hsame
  have hreads : r₂.settings.ReadsAll r₂.files := by
    rcases hdepth with hle | hreads
    · rw [← hfiles]
      exact readsAll_of_unitFrom hle hunit
    · exact hreads
  have hcompiled := unitFrom_of_sameGlobals hsame hlate (hfiles ▸ hreads) hunit
  rwa [hfiles] at hcompiled

theorem copied_of_sized {r : Request} (h : ∀ u, r.unit = .ok u → u.Sized) : r.Copied := by
  intro u data copies hunit hdata hcopies
  have hstorable := unitFrom_storable hunit
  rw [CodeUnit.toBytes_eq hstorable] at hdata
  cases hdata
  rw [CodeUnit.ofBytes_encode hstorable (h u hunit)] at hcopies
  split at hcopies
  · cases hcopies
    exact CodeUnit.forall₂_same_canonical hstorable
  · cases hcopies

end Request

/-- What is done to a cache. -/
inductive Action where
  | build (r : Request)
  | prune (before : Int)

/-- The answer to a request, and the cache after it. A build that fails leaves the cache as it was. -/
def serve (c : Cache) (r : Request) : Except Fault CodeUnit × Cache :=
  match cached r.settings r.files r.label r.stamp c with
  | .ok (u, c') => (.ok u, c')
  | .error f => (.error f, c)

/-- The answers to the requests of a run. -/
def answers : Cache → List Action → List (Except Fault CodeUnit)
  | _, [] => []
  | c, .prune before :: rest => answers (c.prune before).1 rest
  | c, .build r :: rest => (serve c r).1 :: answers (serve c r).2 rest

def requests : List Action → List Request
  | [] => []
  | .prune _ :: rest => requests rest
  | .build r :: rest => r :: requests rest

/-- An answer is what is compiled: the same faults, or the unit itself or a copy of it. -/
inductive Agrees : Except (List Diagnostic) CodeUnit → Except Fault CodeUnit → Prop where
  | failed {faults : List Diagnostic} : Agrees (.error faults) (.error (.program faults))
  | compiled {u : CodeUnit} : Agrees (.ok u) (.ok u)
  | copied {u copies : CodeUnit} : List.Forall₂ Image.Same u copies → Agrees (.ok u) (.ok copies)

/-- What is assumed of the requests of a run: their keys are not equal by accident, units are read as
they were written, and an earlier request stores nothing that is wrong for a later one. -/
structure Separate (rs : List Request) : Prop where
  digests : ∀ r ∈ rs, ∀ r' ∈ rs,
    Sha256.hash r.keyText = Sha256.hash r'.keyText → r.keyText = r'.keyText
  copied : ∀ r ∈ rs, r.Copied
  foretold : rs.Pairwise Request.Foretells

/-- Every artifact is the unit of an earlier request under the key of that request. -/
def Sound (past : List Request) (c : Cache) : Prop :=
  ∀ a ∈ c.artifacts, ∃ r ∈ past, ∃ u, r.unit = .ok u ∧ a.digest = r.key ∧ u.toBytes = .ok a.code

section
variable {past : List Request} {c : Cache} {r : Request}

theorem serve_of_get {a : Artifact} {copies : CodeUnit} (h : c.get r.key = .ok (a, copies)) :
    serve c r = (.ok copies, c) := by
  unfold serve cached
  rw [show Build.key r.settings r.files = r.key from rfl, h]

theorem serve_of_fault {f : Cache.Fault} {faults : List Diagnostic} (h : c.get r.key = .error f)
    (hunit : r.unit = .error faults) : serve c r = (.error (.program faults), c) := by
  unfold serve cached
  rw [show Build.key r.settings r.files = r.key from rfl, h,
    show Build.unit r.settings r.files = r.unit from rfl, hunit]
  rfl

/-- A unit that had to be compiled replaces what stood under its key. -/
theorem serve_of_unit {f : Cache.Fault} {u : CodeUnit} {code : Bytes} (h : c.get r.key = .error f)
    (hunit : r.unit = .ok u) (hcode : u.toBytes = .ok code) :
    serve c r = (.ok u, ⟨c.artifacts.filter (·.digest ≠ r.key) ++
      [⟨r.key, r.label, u.length, code, r.stamp⟩]⟩) := by
  unfold serve cached
  rw [show Build.key r.settings r.files = r.key from rfl, h,
    show Build.unit r.settings r.files = r.unit from rfl, hunit]
  dsimp only [Except.mapError, bind, Except.bind]
  unfold Cache.put
  rw [hcode]
  rfl

theorem Sound.prune (h : Sound past c) (before : Int) : Sound past (c.prune before).1 :=
  fun a ha => h a (List.mem_filter.1 ha).1

theorem Sound.weaken (h : Sound past c) (r : Request) : Sound (past ++ [r]) c := by
  intro a ha
  obtain ⟨r', hr', hstored⟩ := h a ha
  exact ⟨r', List.mem_append_left _ hr', hstored⟩

/-- What the cache holds under the key of a request is a copy of what the request asks for. -/
theorem Sound.get (h : Sound past c) (hseparate : Separate (past ++ [r])) {a : Artifact}
    {copies : CodeUnit} (hget : c.get r.key = .ok (a, copies)) :
    ∃ u, r.unit = .ok u ∧ List.Forall₂ Image.Same u copies := by
  unfold Cache.get at hget
  split at hget
  · cases hget
  · next b hb =>
    obtain ⟨r', hr', u, hunit, hdigest, hcode⟩ := h b (List.mem_of_find?_eq_some hb)
    have hkey : r'.key = r.key := by
      rw [← hdigest]
      simpa using List.find?_some hb
    have htext : r'.keyText = r.keyText :=
      hseparate.digests r' (List.mem_append_left _ hr') r (List.mem_append_right _ (by simp))
        (Text.hex_inj hkey)
    have hforetells : r'.Foretells r :=
      (List.pairwise_append.1 hseparate.foretold).2.2 r' hr' r (List.mem_singleton_self r)
    have hcopies : CodeUnit.ofBytes b.code = .ok copies := by
      cases hread : CodeUnit.ofBytes b.code with
      | error f =>
        rw [hread] at hget
        cases hget
      | ok v =>
        rw [hread] at hget
        cases hget
        rfl
    exact ⟨u, Request.unit_of_foretells hforetells htext hunit,
      hseparate.copied r' (List.mem_append_left _ hr') u b.code copies hunit hcode hcopies⟩

/-- One request is answered as it should be, and the cache stays sound. -/
theorem Sound.serve (h : Sound past c) (hseparate : Separate (past ++ [r])) :
    Agrees r.unit (serve c r).1 ∧ Sound (past ++ [r]) (serve c r).2 := by
  cases hget : c.get r.key with
  | ok found =>
    obtain ⟨a, copies⟩ := found
    obtain ⟨u, hunit, hsame⟩ := h.get hseparate hget
    rw [serve_of_get hget, hunit]
    exact ⟨.copied hsame, h.weaken r⟩
  | error f =>
    cases hunit : r.unit with
    | error faults =>
      rw [serve_of_fault hget hunit]
      exact ⟨.failed, h.weaken r⟩
    | ok u =>
      have hcode := CodeUnit.toBytes_eq (unitFrom_storable hunit)
      rw [serve_of_unit hget hunit hcode]
      refine ⟨.compiled, fun a ha => ?_⟩
      rcases List.mem_append.1 ha with ha | ha
      · exact h.weaken r a (List.mem_filter.1 ha).1
      · cases List.mem_singleton.1 ha
        exact ⟨r, List.mem_append_right _ (List.mem_singleton_self r), u, hunit, rfl, hcode⟩

theorem Separate.of_append {more : List Request} (h : Separate (past ++ more)) : Separate past :=
  ⟨fun r hr r' hr' => h.digests r (List.mem_append_left _ hr) r' (List.mem_append_left _ hr'),
    fun r hr => h.copied r (List.mem_append_left _ hr), (List.pairwise_append.1 h.foretold).1⟩

theorem Sound.answers {actions : List Action} (h : Sound past c)
    (hseparate : Separate (past ++ requests actions)) :
    List.Forall₂ Agrees ((requests actions).map Request.unit) (answers c actions) := by
  induction actions generalizing past c with
  | nil => exact .nil
  | cons action rest ih =>
    cases action with
    | prune before => exact ih (h.prune before) hseparate
    | build r =>
      have hnow : Separate ((past ++ [r]) ++ requests rest) := by
        rw [List.append_assoc]
        exact hseparate
      obtain ⟨hagrees, hsound⟩ := h.serve hnow.of_append
      exact .cons hagrees (ih hsound hnow)

end

/-- From an empty cache on, every request of a run is answered with what is compiled for it. -/
theorem answers_agree {actions : List Action} (h : Separate (requests actions)) :
    List.Forall₂ Agrees ((requests actions).map Request.unit) (answers {} actions) := by
  have hempty : Sound [] {} := List.forall_mem_nil _
  exact hempty.answers h

/-! ### Runs on a single file -/

/-- The request to compile a single text. -/
def Request.ofText (settings : Settings) (text : Bytes) (time : Int) : Request :=
  ⟨settings, [⟨lit "m.k", text⟩], lit "m.k", ⟨lit "1", time⟩⟩

theorem Request.copied_ofText (settings : Settings) {text : Bytes} (time : Int)
    (hlen : text.length < Cbor.longest) : (ofText settings text time).Copied := by
  refine copied_of_sized fun u hunit => ?_
  obtain ⟨c, more, hfile, hmore, rfl⟩ := unitFrom_cons.1 hunit
  cases hmore
  have hname : (lit "m.k").length < Cbor.wordSize := by decide
  rw [List.append_nil]
  exact Compilation.compile_sized (file_eq_ok.1 hfile).2 hlen hname nofun

def sampleText : Bytes := lit "(define f (lambda (x) (g x)))"

/-- Names of the host in two orders, none at all, so that the program cannot be compiled, and a limit
on depth that just suffices. -/
def sampleRun : List Action :=
  [.build (.ofText { globals := [lit "g", lit "h"], depth := 3 } sampleText 10),
    .build (.ofText { globals := [lit "h", lit "g", lit "h"] } sampleText 11),
    .build (.ofText {} sampleText 12),
    .prune 11,
    .build (.ofText { globals := [lit "g", lit "h"] } sampleText 13),
    .build (.ofText { globals := [lit "h", lit "g"], depth := 3 } sampleText 14)]

/-- The text of a key of the run. -/
def sampleKey (globals : Bytes) : Bytes :=
  [Text.decimalInt formatVersion, lit "m.k", sampleText, lit "globals", globals,
    lit "late-binding", lit "false"].flatMap Cache.chunk

theorem keyText_sample {settings : Settings} (hlate : settings.lateBinding = false) (time : Int)
    (names : List Bytes) (hperm : settings.globals.Perm names) (hsorted : names.Pairwise (· ≤ ·)) :
    (Request.ofText settings sampleText time).keyText =
      sampleKey (Text.join (lit ",") (Text.dedupAdjacent names)) := by
  rw [Request.keyText, Cache.keyText_eq, Request.ofText, Settings.parts_toTexts, hlate,
    Settings.globalsText_eq_of_perm hperm hsorted]
  rfl

theorem sampleRun_agrees :
    Separate (requests sampleRun) ∧
      List.Forall₂ Agrees ((requests sampleRun).map Request.unit) (answers {} sampleRun) := by
  have hkey : ∀ r ∈ requests sampleRun, r.keyText ∈ [sampleKey (lit "g,h"), sampleKey []] := by
    simp only [requests, sampleRun, List.forall_mem_cons]
    refine ⟨?_, ?_, ?_, ?_, ?_, List.forall_mem_nil _⟩
    · rw [keyText_sample rfl _ [lit "g", lit "h"] (by decide) (by decide)]
      exact List.mem_cons_self
    · rw [keyText_sample rfl _ [lit "g", lit "h", lit "h"] (by decide) (by decide)]
      exact List.mem_cons_self
    · rw [keyText_sample rfl _ [] (by decide) (by decide)]
      exact List.mem_cons_of_mem _ (List.mem_singleton_self _)
    · rw [keyText_sample rfl _ [lit "g", lit "h"] (by decide) (by decide)]
      exact List.mem_cons_self
    · rw [keyText_sample rfl _ [lit "g", lit "h"] (by decide) (by decide)]
      exact List.mem_cons_self
  have hdigests : ∀ k ∈ [sampleKey (lit "g,h"), sampleKey []],
      ∀ k' ∈ [sampleKey (lit "g,h"), sampleKey []], Sha256.hash k = Sha256.hash k' → k = k' := by
    decide +kernel
  have hforetold : (requests sampleRun).Pairwise fun r r' =>
      ((∀ n ∈ r.settings.globals, Text.Separable n) ∧
        ∀ n ∈ r'.settings.globals, Text.Separable n) ∧
      (r.settings.depth ≤ r'.settings.depth ∨ r'.settings.ReadsAll r'.files) := by
    decide +kernel
  have hcopied : ∀ r ∈ requests sampleRun, r.Copied := by
    simp only [requests, sampleRun, List.forall_mem_cons]
    exact ⟨Request.copied_ofText _ _ (by decide), Request.copied_ofText _ _ (by decide),
      Request.copied_ofText _ _ (by decide), Request.copied_ofText _ _ (by decide),
      Request.copied_ofText _ _ (by decide), List.forall_mem_nil _⟩
  have hseparate : Separate (requests sampleRun) :=
    ⟨fun r hr r' hr' => hdigests _ (hkey r hr) _ (hkey r' hr'), hcopied,
      hforetold.imp fun h _ _ => ⟨.inl h.1, h.2⟩⟩
  exact ⟨hseparate, answers_agree hseparate⟩

/-- A request that shares its key with one before it is answered, even if it cannot be compiled. -/
theorem disagrees_of_key {r r' : Request} (hkey : r.key = r'.key)
    (hstored : ((r.unit.toOption.bind fun u => u.toBytes.toOption).bind
      fun code => (CodeUnit.ofBytes code).toOption).isSome = true)
    (hfails : r'.unit.toOption = none) :
    ¬ List.Forall₂ Agrees [r.unit, r'.unit] (answers {} [.build r, .build r']) := by
  intro h
  cases hunit' : r'.unit with
  | ok u' =>
    rw [hunit'] at hfails
    cases hfails
  | error faults =>
  cases hunit : r.unit with
  | error faults =>
    rw [hunit] at hstored
    cases hstored
  | ok u =>
  cases hcode : u.toBytes with
  | error f =>
    simp [hunit, hcode, Except.toOption] at hstored
  | ok code =>
  cases hcopies : CodeUnit.ofBytes code with
  | error f =>
    simp [hunit, hcode, hcopies, Except.toOption] at hstored
  | ok copies =>
    have hfirst := serve_of_unit (c := {}) rfl hunit hcode
    have hget : (serve {} r).2.get r'.key =
        .ok (⟨r.key, r.label, u.length, code, r.stamp⟩, copies) := by
      rw [hfirst, Cache.get]
      simp [hkey, hcopies, Except.mapError, Except.map]
    rw [answers, answers, serve_of_get hget, hunit'] at h
    cases h with
    | cons _ hrest =>
    cases hrest with
    | cons hagrees _ => cases hagrees

/-- The key leaves out the limit on depth, and two names may be written like one with a comma. -/
theorem stale_answers :
    (let deep := Request.ofText {} (lit "(list (list 1))") 0
      let flat := Request.ofText { depth := 1 } (lit "(list (list 1))") 0
      ¬ List.Forall₂ Agrees [deep.unit, flat.unit] (answers {} [.build deep, .build flat])) ∧
    (let two := Request.ofText { globals := [lit "a", lit "b"] } (lit "a") 0
      let one := Request.ofText { globals := [lit "a,b"] } (lit "a") 0
      ¬ List.Forall₂ Agrees [two.unit, one.unit] (answers {} [.build two, .build one])) := by
  refine ⟨disagrees_of_key rfl (by decide +kernel) (by decide +kernel), ?_⟩
  have htext : (Request.ofText { globals := [lit "a", lit "b"] } (lit "a") 0).keyText =
      (Request.ofText { globals := [lit "a,b"] } (lit "a") 0).keyText := by
    refine Settings.keyText_eq_iff.2 ⟨rfl, ?_, rfl⟩
    rw [Request.ofText, Request.ofText,
      Settings.globalsText_eq_of_perm (.refl _) (by decide : [lit "a", lit "b"].Pairwise (· ≤ ·)),
      Settings.globalsText_eq_of_perm (.refl _) (by decide : [lit "a,b"].Pairwise (· ≤ ·))]
    rfl
  exact disagrees_of_key (congrArg (fun text => Text.hex (Sha256.hash text)) htext)
    (by decide +kernel) (by decide +kernel)

end Build
end StackLisp
