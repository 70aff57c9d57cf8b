import StackLisp.Proofs.FaultPlaces

/-! How the forms of a text are attempted. Reading goes from one attempt to the next, each of which
takes a datum and adds a form or a fault, until the text ends, a datum cannot be read or there are
faults enough. So forms and faults come in the order of the text, and a text is free of faults
exactly when its tokens are used up by forms. -/
namespace StackLisp

/-! ### Where forms start -/

/-- An expression has the place of its datum. -/
theorem Expr.pos_of_ofDatum {d : Datum} {e : Expr} (h : ofDatum d = .ok e) : e.pos = d.start := by
  have hM : Compositional fun d e => e.pos = d.start := {
    atom := by
      intro t e he
      have hplaces := places_ofAtom he
      rw [places_eq] at hplaces
      exact (List.cons.inj hplaces).1
    unit := rfl
    call := fun _ _ => rfl
    apply := fun _ _ _ => rfl
    cond := fun _ _ _ => rfl
    condElse := fun _ _ _ _ => rfl
    lambda := fun _ _ _ => rfl
    define := fun _ _ _ => rfl
    defineFunction := fun _ _ _ _ => rfl
    const := fun _ _ _ => rfl
    letIn := fun _ _ _ => rfl
    block := fun _ _ => rfl
    and := fun _ _ => rfl
    or := fun _ _ => rfl }
  exact hM.ofDatum h

namespace Datum.Grammar

variable {d : Datum} {ds all : List Datum} {own left : List Token}

theorem eq_nil (h : Grammar [] own) : own = [] := by
  cases h
  rfl

theorem ne_nil (h : Grammar (d :: ds) own) : own ≠ [] := by
  cases h with
  | atom => exact List.cons_ne_nil _ _
  | list => exact List.cons_ne_nil _ _

/-- The tokens of the first datum stand in front of those of the others. -/
theorem uncons (h : Grammar (d :: ds) own) :
    ∃ first rest, own = first ++ rest ∧ Grammar [d] first ∧ Grammar ds rest := by
  cases h with
  | @atom t _ ts ht hrest => exact ⟨[t], ts, rfl, .atom ht .nil, hrest⟩
  | @list o c items inner _ ts ho hc hitems hrest =>
    refine ⟨o :: (inner ++ [c]), ts, ?_, .list ho hc hitems .nil, hrest⟩
    rw [List.cons_append, List.append_assoc, List.singleton_append]

/-- Data that stand in front of other tokens are the first of all data. -/
theorem split (h : Grammar ds own) (hall : Grammar all (own ++ left)) :
    ∃ more, all = ds ++ more ∧ Grammar more left := by
  induction ds generalizing own all with
  | nil =>
    rw [h.eq_nil] at hall
    exact ⟨all, rfl, hall⟩
  | cons d ds ih =>
    obtain ⟨first, rest, rfl, hfirst, hrest⟩ := h.uncons
    cases all with
    | nil =>
      have hnil := List.append_eq_nil_iff.1 hall.eq_nil
      exact absurd (List.append_eq_nil_iff.1 hnil.1).1 hfirst.ne_nil
    | cons e all =>
      obtain ⟨first', rest', heq, hfirst', hrest'⟩ := hall.uncons
      rw [List.append_assoc] at heq
      obtain ⟨rfl, rfl⟩ := hfirst.unique hfirst' heq
      have htail : Grammar all (rest ++ left) := by
        rw [List.append_cancel_left heq]
        exact hrest'
      obtain ⟨more, rfl, hmore⟩ := ih hrest htail
      exact ⟨more, rfl, hmore⟩

end Datum.Grammar

namespace Program

open Datum (Grammar)

/-! ### Attempts -/

/-- What comes of an attempt at a form: a datum is read and analysed, or it is read and refused, or
none can be read. -/
inductive Attempt where
  | form (d : Datum) (e : Expr)
  | malformed (d : Datum) (f : LocatedFault)
  | unreadable (f : LocatedFault)

namespace Attempt

def datum? : Attempt → Option Datum
  | form d _ | malformed d _ => some d
  | unreadable _ => none

def form? : Attempt → Option Expr
  | form _ e => some e
  | malformed _ _ | unreadable _ => none

def fault? : Attempt → Option LocatedFault
  | form _ _ => none
  | malformed _ f | unreadable f => some f

/-- Where the form or the fault stands that the attempt adds. -/
def place : Attempt → Position
  | form _ e => e.pos
  | malformed _ f | unreadable f => f.start

theorem place_of_form? {a : Attempt} {e : Expr} (h : a.form? = some e) : a.place = e.pos := by
  cases a with
  | form d e' =>
    cases h
    rfl
  | malformed | unreadable => cases h

theorem place_of_fault? {a : Attempt} {f : LocatedFault} (h : a.fault? = some f) :
    a.place = f.start := by
  cases a with
  | form => cases h
  | malformed d f' =>
    cases h
    rfl
  | unreadable f' =>
    cases h
    rfl

/-- An attempt adds a form or a fault, and not both. -/
theorem length_forms_faults (as : List Attempt) :
    (as.filterMap form?).length + (as.filterMap fault?).length = as.length := by
  induction as with
  | nil => rfl
  | cons a as ih =>
    cases a <;> simp only [List.filterMap_cons, form?, fault?, List.length_cons] <;> omega

theorem length_forms_le_data (as : List Attempt) :
    (as.filterMap form?).length ≤ (as.filterMap datum?).length := by
  induction as with
  | nil => exact Nat.le_refl _
  | cons a as ih =>
    cases a <;> simp only [List.filterMap_cons, form?, datum?, List.length_cons] <;> omega

theorem length_data {as : List Attempt} (h : ∀ f, unreadable f ∉ as) :
    (as.filterMap datum?).length = as.length := by
  induction as with
  | nil => rfl
  | cons a as ih =>
    have hrest := ih fun f hf => h f (.tail _ hf)
    cases a with
    | form d e => simp only [List.filterMap_cons, datum?, List.length_cons, hrest]
    | malformed d f => simp only [List.filterMap_cons, datum?, List.length_cons, hrest]
    | unreadable f => exact absurd (.head _) (h f)

end Attempt

open Attempt

/-- The attempts at the tokens of a text after `found` faults, and the tokens that are left when no
further attempt is made. -/
inductive Run (limit : Int) (ending : Ending) :
    Nat → List Token → List Attempt → List Token → Prop where
  | finished {found : Nat} {place : Position} : ending = .finished place →
      Run limit ending found [] [] []
  | enough {found : Nat} {ts : List Token} : ts ≠ [] → mostFaults ≤ found →
      Run limit ending found ts [] ts
  | unreadable {found : Nat} {ts : List Token} {f : LocatedFault} :
      (ts = [] → ∃ g, ending = .failed g) → found < mostFaults →
      Datum.read limit ending ts = .error f → Run limit ending found ts [.unreadable f] ts
  | form {found : Nat} {ts rest left : List Token} {d : Datum} {e : Expr} {as : List Attempt} :
      found < mostFaults → Datum.read limit ending ts = .ok (d, rest) → Expr.ofDatum d = .ok e →
      Run limit ending found rest as left → Run limit ending found ts (.form d e :: as) left
  | malformed {found : Nat} {ts rest left : List Token} {d : Datum} {f : LocatedFault}
      {as : List Attempt} :
      found < mostFaults → Datum.read limit ending ts = .ok (d, rest) →
      Expr.ofDatum d = .error f → Run limit ending (found + 1) rest as left →
      Run limit ending found ts (.malformed d f :: as) left

variable {limit : Int} {ending : Ending} {found n : Nat} {ts left : List Token}
  {as : List Attempt} {file text : Bytes}

/-- Reading makes such attempts and gathers what they add. -/
theorem exists_run (hstart : ∀ g, ts = [] → ending = .failed g → found < mostFaults) :
    ∃ as left, Run limit ending found ts as left ∧
      readFrom limit ending found ts = ⟨as.filterMap form?, as.filterMap fault?⟩ := by
  fun_induction readFrom limit ending found ts with
  | case1 found place hending => exact ⟨[], [], .finished hending, rfl⟩
  | case2 found g hending =>
    have hread : Datum.read limit ending [] = .error g.located := by
      rw [hending]
      rfl
    exact ⟨[.unreadable g.located], [], .unreadable (fun _ => ⟨g, hending⟩)
      (hstart g rfl hending) hread, rfl⟩
  | case3 found t rest hmany => exact ⟨[], t :: rest, .enough (List.cons_ne_nil _ _) hmany, rfl⟩
  | case4 found t rest hfew f hread =>
    refine ⟨[.unreadable f], t :: rest, .unreadable (fun hnil => ?_) (Nat.lt_of_not_le hfew) hread,
      rfl⟩
    cases hnil
  | case5 found t rest hfew d left hread f hd p ih =>
    -- behind the last datum the scanner did not fail, or the datum would not have been read
    have hnext : ∀ g, left = [] → ending = .failed g → found + 1 < mostFaults := by
      rintro g rfl hfailed
      obtain ⟨place, hfinished⟩ := Datum.finished_of_readWithin hread
      cases hfailed.symm.trans hfinished
    obtain ⟨as, last, hrun, hp⟩ := ih hnext
    refine ⟨.malformed d f :: as, last, .malformed (Nat.lt_of_not_le hfew) hread hd hrun, ?_⟩
    have hp' : p = ⟨as.filterMap form?, as.filterMap fault?⟩ := hp
    rw [hp']
    rfl
  | case6 found t rest hfew d left hread e hd p ih =>
    have hnext : ∀ g, left = [] → ending = .failed g → found < mostFaults :=
      fun _ _ _ => Nat.lt_of_not_le hfew
    obtain ⟨as, last, hrun, hp⟩ := ih hnext
    refine ⟨.form d e :: as, last, .form (Nat.lt_of_not_le hfew) hread hd hrun, ?_⟩
    have hp' : p = ⟨as.filterMap form?, as.filterMap fault?⟩ := hp
    rw [hp']
    rfl

/-- So the forms and faults of a text are those of a run over its tokens. -/
theorem exists_run_read (options : ReadOptions) (source : Bytes) :
    let ts := Token.scan options.filename source
    ∃ as left, Run options.depth ts.ending 0 ts.list as left ∧
      Tiles options.filename source 0 ts.list ts.ending ∧
      (read options source).forms = as.filterMap form? ∧
      (read options source).faults = as.filterMap fault? := by
  intro ts
  obtain ⟨as, left, hrun, hread⟩ :=
    @exists_run options.depth ts.ending 0 ts.list fun _ _ _ => Nat.succ_pos _
  have htiles : Tiles options.filename source 0 ts.list ts.ending :=
    Token.tiles_scanFrom _ _ [] (Position.Reached.start options.filename source)
  exact ⟨as, left, hrun, htiles, congrArg forms hread, congrArg faults hread⟩

namespace Run

theorem length_faults_le (h : Run limit ending found ts as left) (hfound : found ≤ mostFaults) :
    found + (as.filterMap fault?).length ≤ mostFaults := by
  induction h with
  | finished | enough => exact hfound
  | unreadable _ hfew _ => exact hfew
  | form hfew _ _ _ ih => exact ih hfound
  | malformed hfew _ _ _ ih =>
    have hrest := ih hfew
    simp only [List.filterMap_cons, fault?, List.length_cons]
    omega

/-- Reading goes on to the end of the text unless there are faults enough or a datum cannot be
read. -/
theorem stops (h : Run limit ending found ts as left) (hfound : found ≤ mostFaults) :
    (left = [] ∧ ∃ place, ending = .finished place) ∨
      found + (as.filterMap fault?).length = mostFaults ∨
      ∃ f, as.getLast? = some (.unreadable f) := by
  induction h with
  | finished hending => exact .inl ⟨rfl, _, hending⟩
  | enough _ hmany => exact .inr (.inl (Nat.le_antisymm hfound hmany))
  | unreadable => exact .inr (.inr ⟨_, rfl⟩)
  | @form found ts rest left d e as _ _ _ _ ih =>
    rcases ih hfound with hend | hten | ⟨f, hlast⟩
    · exact .inl hend
    · exact .inr (.inl hten)
    · exact .inr (.inr ⟨f, by rw [List.getLast?_cons, hlast]; rfl⟩)
  | @malformed found ts rest left d f as hfew _ _ _ ih =>
    rcases ih hfew with hend | hten | ⟨g, hlast⟩
    · exact .inl hend
    · refine .inr (.inl ?_)
      simp only [List.filterMap_cons, fault?, List.length_cons]
      omega
    · exact .inr (.inr ⟨g, by rw [List.getLast?_cons, hlast]; rfl⟩)

/-- What is read is taken from the front, one datum behind the other. -/
theorem consumed (h : Run limit ending found ts as left) :
    ∃ own, ts = own ++ left ∧ Grammar (as.filterMap datum?) own := by
  induction h with
  | finished | enough | unreadable => exact ⟨[], rfl, .nil⟩
  | form _ hread _ _ ih =>
    obtain ⟨first, rfl, hfirst⟩ := Datum.grammar_of_read hread
    obtain ⟨own, rfl, hown⟩ := ih
    exact ⟨first ++ own, (List.append_assoc _ _ _).symm, hfirst.append hown⟩
  | malformed _ hread _ _ ih =>
    obtain ⟨first, rfl, hfirst⟩ := Datum.grammar_of_read hread
    obtain ⟨own, rfl, hown⟩ := ih
    exact ⟨first ++ own, (List.append_assoc _ _ _).symm, hfirst.append hown⟩

/-- The fault of a text that cannot be read lies in what is left of it. -/
theorem le_start_of_read (ht : Tiles file text n ts ending) {f : LocatedFault}
    (hne : ts = [] → ∃ g, ending = .failed g) (h : Datum.read limit ending ts = .error f) :
    n ≤ f.start.offset := by
  rcases Datum.blamesToken_of_read hne h with ⟨t, hmem, hf⟩ | ⟨g, hg, hf⟩
  · rw [hf]
    exact (ht.placed t hmem).2
  · rw [hg] at ht
    have hinside := ht.fault.1.inside
    have hle := ht.fault.2
    rw [hf]
    omega

/-- The form or fault that is added lies in the datum that was read, and the rest of the text behind
it. -/
theorem step {rest : List Token} {d : Datum} (ht : Tiles file text n ts ending)
    (hread : Datum.read limit ending ts = .ok (d, rest)) : n ≤ d.start.offset ∧
      d.start.offset < d.stop.offset ∧ Tiles file text d.stop.offset rest ending ∧
      ∀ f, Expr.ofDatum d = .error f → d.start.offset ≤ f.start.offset ∧
        f.start.offset < f.stop.offset ∧ f.stop.offset ≤ d.stop.offset := by
  obtain ⟨own, rfl, hd⟩ := Datum.grammar_of_read hread
  have hordered : Token.Ordered own := ht.ordered.sublist (List.sublist_append_left own rest)
  obtain ⟨t, -, hlast, hstop⟩ := hd.exists_stop
  have hfirst := hd.token_mem
  have hstart : n ≤ d.token.start.offset := (ht.placed d.token (List.mem_append_left _ hfirst)).2
  have hsize := hordered.1 d.token hfirst
  have hend := (hd.encloses hordered d.token hfirst).2
  refine ⟨hstart, Nat.lt_of_lt_of_le hsize hend, ?_, fun f hf => ?_⟩
  · rw [← hstop]
    exact ht.behind hlast
  · exact hd.fault_within hordered (Expr.blamed_of_ofDatum hf)

/-- What is added before `m` stands in front of what is added behind it. -/
theorem ordered_cons {a : Attempt} {m : Nat} (hlow : n ≤ a.place.offset)
    (hhigh : a.place.offset < m) (hlater : ∀ b ∈ as, m ≤ b.place.offset)
    (hpairs : as.Pairwise fun b c => b.place.offset < c.place.offset) :
    (∀ b ∈ a :: as, n ≤ b.place.offset) ∧
      (a :: as).Pairwise fun b c => b.place.offset < c.place.offset := by
  constructor
  · intro b hb
    rcases List.mem_cons.1 hb with rfl | hb
    · exact hlow
    · have hle := hlater b hb
      omega
  · exact List.pairwise_cons.2 ⟨fun b hb => Nat.lt_of_lt_of_le hhigh (hlater b hb), hpairs⟩

/-- What is added stands in the order of the text. -/
theorem ordered (h : Run limit ending found ts as left) :
    ∀ {n}, Tiles file text n ts ending → (∀ a ∈ as, n ≤ a.place.offset) ∧
      as.Pairwise fun a b => a.place.offset < b.place.offset := by
  induction h with
  | finished | enough => exact fun _ => ⟨List.forall_mem_nil _, .nil⟩
  | unreadable hne _ hread =>
    intro n ht
    have hle := le_start_of_read ht hne hread
    exact ⟨List.forall_mem_singleton.2 hle, List.pairwise_singleton _ _⟩
  | @form _ _ _ _ d e _ _ hread hd _ ih =>
    intro n ht
    obtain ⟨hstart, hsize, hrest, -⟩ := step ht hread
    obtain ⟨hlater, hpairs⟩ := ih hrest
    have hplace : (Attempt.form d e).place = d.start := Expr.pos_of_ofDatum hd
    rw [← hplace] at hstart hsize
    exact ordered_cons hstart hsize hlater hpairs
  | @malformed _ _ _ _ d f _ _ hread hd _ ih =>
    intro n ht
    obtain ⟨hstart, hsize, hrest, hwithin⟩ := step ht hread
    obtain ⟨hlater, hpairs⟩ := ih hrest
    obtain ⟨hlow, hpos, hhigh⟩ := hwithin f hd
    exact ordered_cons (Nat.le_trans hstart hlow) (Nat.lt_of_lt_of_le hpos hhigh) hlater hpairs

/-- The faults of the analysis lie within their forms. -/
theorem within (h : Run limit ending found ts as left) :
    ∀ {n}, Tiles file text n ts ending → ∀ d f, .malformed d f ∈ as →
      d.start.offset ≤ f.start.offset ∧ f.start.offset < f.stop.offset ∧
        f.stop.offset ≤ d.stop.offset := by
  induction h with
  | finished | enough =>
    intro n _ d f hmem
    cases hmem
  | unreadable =>
    intro n _ d f hmem
    cases List.mem_singleton.1 hmem
  | form _ hread _ _ ih =>
    intro n ht d f hmem
    rcases List.mem_cons.1 hmem with heq | hmem
    · cases heq
    · exact ih (step ht hread).2.2.1 d f hmem
  | malformed _ hread hd _ ih =>
    intro n ht d f hmem
    obtain ⟨-, -, hrest, hwithin⟩ := step ht hread
    rcases List.mem_cons.1 hmem with heq | hmem
    · cases heq
      exact hwithin _ hd
    · exact ih hrest d f hmem

/-- Forms that were added without a fault are what the data spell. -/
theorem spelled (h : Run limit ending found ts as left) (hclean : as.filterMap fault? = []) :
    List.Forall₂ (fun d e => Expr.ofDatum d = .ok e) (as.filterMap datum?)
      (as.filterMap form?) := by
  induction h with
  | finished | enough => exact .nil
  | unreadable => cases hclean
  | form _ _ hd _ ih => exact .cons hd (ih hclean)
  | malformed => cases hclean

/-- Something is left where a datum could not be read. -/
theorem unfinished (h : Run limit ending found ts as left) {f : LocatedFault}
    (hf : .unreadable f ∈ as) : left = [] → ∃ g, ending = .failed g := by
  induction h with
  | finished | enough => cases hf
  | unreadable hne => exact hne
  | form _ _ _ _ ih =>
    rcases List.mem_cons.1 hf with heq | hf
    · cases heq
    · exact ih hf
  | malformed _ _ _ _ ih =>
    rcases List.mem_cons.1 hf with heq | hf
    · cases heq
    · exact ih hf

/-- A run is free of faults exactly when it used up all tokens for forms. -/
theorem clean_iff (h : Run limit ending 0 ts as left) : as.filterMap fault? = [] ↔
    (∃ place, ending = .finished place) ∧ ∃ data, Grammar data ts ∧
      List.Forall₂ (fun d e => Expr.ofDatum d = .ok e) data (as.filterMap form?) := by
  obtain ⟨own, hts, hown⟩ := h.consumed
  constructor
  · intro hclean
    have hstops := h.stops (Nat.zero_le _)
    rw [hclean] at hstops
    rcases hstops with ⟨hleft, hending⟩ | hten | ⟨f, hlast⟩
    · rw [hleft, List.append_nil] at hts
      exact ⟨hending, _, hts ▸ hown, h.spelled hclean⟩
    · cases hten
    · have hfault := List.filterMap_eq_nil_iff.1 hclean _ (List.mem_of_getLast? hlast)
      cases hfault
  · rintro ⟨⟨place, hending⟩, data, hdata, hforms⟩
    rw [hts] at hdata
    -- what was read are the first data, and there are too few forms for more
    obtain ⟨more, rfl, hmore⟩ := hown.split hdata
    have hlength := hforms.length_eq
    have hle := length_forms_le_data as
    rw [List.length_append] at hlength
    obtain rfl : more = [] := List.length_eq_zero_iff.1 (by omega)
    have hread : ∀ f, .unreadable f ∉ as := by
      intro f hf
      obtain ⟨g, hg⟩ := h.unfinished hf hmore.eq_nil
      cases hending.symm.trans hg
    have hall := length_data hread
    have hsum := length_forms_faults as
    rw [List.length_nil] at hlength
    exact List.length_eq_zero_iff.1 (by omega)

end Run

/-- The attempts at the forms of a text are in order: what they add, and the tokens they leave. -/
structure Orderly (ts : Tokens) (p : Program) (attempts : List Attempt) (left : List Token) :
    Prop where
  /-- What is reported comes from the attempts, and each adds one form or one fault. -/
  forms : p.forms = attempts.filterMap form?
  faults : p.faults = attempts.filterMap fault?
  one : p.forms.length + p.faults.length = attempts.length
  few : p.faults.length ≤ mostFaults
  /-- The attempts take data from the front of the text. They stop before its end only at the last
  fault that is allowed, or where the scanner or the reader fails. -/
  taken : ∃ own, ts.list = own ++ left ∧ Grammar (attempts.filterMap datum?) own
  stops : (left = [] ∧ ∃ place, ts.ending = .finished place) ∨ p.faults.length = mostFaults ∨
    ∃ f, attempts.getLast? = some (.unreadable f)
  /-- Forms and faults come in the order of the text, and a fault of the analysis lies within its
  form. -/
  formsOrdered : p.forms.Pairwise fun d e => d.pos.offset < e.pos.offset
  faultsOrdered : p.faults.Pairwise fun f g => f.start.offset < g.start.offset
  within : ∀ d f, .malformed d f ∈ attempts → d.start.offset ≤ f.start.offset ∧
    f.start.offset < f.stop.offset ∧ f.stop.offset ≤ d.stop.offset
  /-- There is no fault exactly when all tokens are used up by the forms. -/
  clean : p.faults = [] ↔ (∃ place, ts.ending = .finished place) ∧ ∃ data, Grammar data ts.list ∧
    List.Forall₂ (fun d e => Expr.ofDatum d = .ok e) data p.forms

/-- Every text is read in an orderly way, under every limit. -/
theorem read_orderly (options : ReadOptions) (source : Bytes) :
    let ts := Token.scan options.filename source
    ∃ attempts left, Run options.depth ts.ending 0 ts.list attempts left ∧
      Orderly ts (read options source) attempts left := by
  intro ts
  obtain ⟨as, left, hrun, htiles, hforms, hfaults⟩ := exists_run_read options source
  have hordered := (hrun.ordered htiles).2
  refine ⟨as, left, hrun, hforms, hfaults, ?_, ?_, hrun.consumed, ?_, ?_, ?_,
    hrun.within htiles, ?_⟩
  · rw [hforms, hfaults]
    exact length_forms_faults as
  · rw [hfaults]
    have hfew := hrun.length_faults_le (Nat.zero_le _)
    omega
  · rw [hfaults]
    have hstops := hrun.stops (Nat.zero_le _)
    rwa [Nat.zero_add] at hstops
  · rw [hforms, List.pairwise_filterMap]
    refine hordered.imp fun hlt d hd e he => ?_
    rwa [place_of_form? hd, place_of_form? he] at hlt
  · rw [hfaults, List.pairwise_filterMap]
    refine hordered.imp fun hlt f hf g hg => ?_
    rwa [place_of_fault? hf, place_of_fault? hg] at hlt
  · rw [hforms, hfaults]
    exact hrun.clean_iff

end Program
end StackLisp
