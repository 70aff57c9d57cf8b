import StackLisp.Proofs.Caching

/-! Checking and compiling. Both go through the files in order with the same environment as long as
files compile. Compiling stops at the first that fails; checking notes its faults and goes on as if
the file were not there. -/
namespace StackLisp.Build

/-- The files compile one behind the other. They give the unit `u` and lead from one environment to
another. -/
inductive Passes (s : Settings) :
    Environment → List SourceFile → CodeUnit → Environment → Prop where
  | nil {env : Environment} : Passes s env [] [] env
  | cons {env env' : Environment} {f : SourceFile} {rest : List SourceFile} {c : Compilation}
      {u : CodeUnit} : file s env f = .ok c → Passes s c.env rest u env' →
      Passes s env (f :: rest) (c.images ++ u) env'

/-- What is reported of a file that fails: all faults of its text, or the one refusal of its
forms. -/
inductive Fails (s : Settings) (env : Environment) (f : SourceFile) : List Diagnostic → Prop where
  | unreadable : (Program.read (s.readOptions f) f.text).faults ≠ [] →
      Fails s env f
        ((Program.read (s.readOptions f) f.text).diagnostics (s.readOptions f) f.text)
  | refused {r : LocatedRefusal} : (Program.read (s.readOptions f) f.text).faults = [] →
      Compilation.compile (s.compileOptions f) env (Program.read (s.readOptions f) f.text).forms =
        .error r →
      Fails s env f [r.diagnostic (s.compileOptions f)]

variable {s : Settings} {env env' : Environment} {f : SourceFile} {ds : List Diagnostic}
  {files more : List SourceFile} {u : CodeUnit}

theorem fails_of_file (h : file s env f = .error ds) : Fails s env f ds := by
  unfold file at h
  by_cases hfaults : (Program.read (s.readOptions f) f.text).faults = []
  · cases hcompile : Compilation.compile (s.compileOptions f) env
        (Program.read (s.readOptions f) f.text).forms with
    | error r =>
      simp only [hfaults, hcompile] at h
      cases h
      exact .refused hfaults hcompile
    | ok c =>
      simp only [hfaults, hcompile] at h
      cases h
  · have hsome : (!(Program.read (s.readOptions f) f.text).faults.isEmpty) = true := by
      simpa using hfaults
    simp only [hsome] at h
    cases h
    exact .unreadable hfaults

/-- A file that fails has something to report. -/
theorem Fails.ne_nil (h : Fails s env f ds) : ds ≠ [] := by
  cases h with
  | unreadable hfaults =>
    intro hnil
    exact hfaults (List.map_eq_nil_iff.1 hnil)
  | refused => exact List.cons_ne_nil _ _

theorem Passes.unitFrom (h : Passes s env files u env') : unitFrom s env files = .ok u := by
  induction h with
  | nil => rfl
  | cons hfile _ ih => exact unitFrom_cons.2 ⟨_, _, hfile, ih, rfl⟩

/-- What stops the compiler behind files that compile stops it for all. -/
theorem Passes.unitFrom_append (h : Passes s env files u env')
    (hmore : Build.unitFrom s env' more = .error ds) :
    Build.unitFrom s env (files ++ more) = .error ds := by
  induction h with
  | nil => exact hmore
  | cons hfile _ ih =>
    rw [List.cons_append, Build.unitFrom, hfile]
    show (Build.unitFrom s _ _ >>= fun more => pure _) = _
    rw [ih hmore]
    rfl

/-- Files that compile are passed in silence. -/
theorem Passes.checkFrom (h : Passes s env files u env') (more : List SourceFile) :
    checkFrom s env (files ++ more) = Build.checkFrom s env' more := by
  induction h with
  | nil => rfl
  | cons hfile _ ih =>
    rw [List.cons_append, Build.checkFrom, hfile]
    exact ih

/-- Either all files compile, or there is a first that fails. -/
theorem passes_or_fails (s : Settings) (env : Environment) (files : List SourceFile) :
    (∃ u env', Passes s env files u env') ∨
      ∃ before f after u env' ds, files = before ++ f :: after ∧ Passes s env before u env' ∧
        file s env' f = .error ds := by
  induction files generalizing env with
  | nil => exact .inl ⟨[], env, .nil⟩
  | cons f rest ih =>
    cases hfile : file s env f with
    | error ds => exact .inr ⟨[], f, rest, [], env, ds, rfl, .nil, hfile⟩
    | ok c =>
      rcases ih c.env with ⟨u, env', hrest⟩ | ⟨before, g, after, u, env', ds, rfl, hbefore, hg⟩
      · exact .inl ⟨c.images ++ u, env', .cons hfile hrest⟩
      · exact .inr ⟨f :: before, g, after, c.images ++ u, env', ds, rfl, .cons hfile hbefore, hg⟩

theorem unitFrom_of_fails (h : file s env f = .error ds) :
    unitFrom s env (f :: more) = .error ds := by
  rw [unitFrom, h]
  rfl

theorem checkFrom_of_fails (h : file s env f = .error ds) :
    checkFrom s env (f :: more) = ds ++ checkFrom s env more := by
  rw [checkFrom, h]

/-- How checking and compiling the same files compare. -/
structure Agree (s : Settings) (files : List SourceFile) : Prop where
  /-- The check finds nothing exactly when the files compile. -/
  silent : check s files = [] ↔ ∃ u, unit s files = .ok u
  /-- What stops the compiler are the first faults of the check. They are those of the first file
  that fails, which both meet in the environment of the files before it; the check of the others
  goes on in that environment, as if the file were not there. -/
  first : ∀ ds, unit s files = .error ds → ∃ before f after u env,
    files = before ++ f :: after ∧ Passes s .empty before u env ∧ Fails s env f ds ∧
      check s files = ds ++ checkFrom s env after ∧
      check s files = ds ++ check s (before ++ after)

/-- A check is silent exactly when the files compile, and otherwise starts with what stops the
compiler. -/
theorem check_agrees (s : Settings) (files : List SourceFile) : Agree s files := by
  rcases passes_or_fails s .empty files with
    ⟨u, env, hpasses⟩ | ⟨before, f, after, u, env, ds, rfl, hbefore, hf⟩
  · have hunit : unit s files = .ok u := hpasses.unitFrom
    have hcheck := hpasses.checkFrom []
    rw [List.append_nil] at hcheck
    constructor
    · exact ⟨fun _ => ⟨u, hunit⟩, fun _ => hcheck⟩
    · intro ds h
      cases hunit.symm.trans h
  · have hunit : unit s (before ++ f :: after) = .error ds :=
      hbefore.unitFrom_append (unitFrom_of_fails hf)
    have hcheck : check s (before ++ f :: after) = ds ++ checkFrom s env after := by
      rw [check, hbefore.checkFrom, checkFrom_of_fails hf]
    have hfails := fails_of_file hf
    constructor
    · constructor
      · intro hnil
        rw [hcheck] at hnil
        exact absurd (List.append_eq_nil_iff.1 hnil).1 hfails.ne_nil
      · rintro ⟨v, hv⟩
        cases hunit.symm.trans hv
    · intro ds' h
      cases hunit.symm.trans h
      refine ⟨before, f, after, u, env, rfl, hbefore, hfails, hcheck, ?_⟩
      have hothers : check s (before ++ after) = checkFrom s env after := hbefore.checkFrom after
      rw [hcheck, hothers]

end StackLisp.Build
