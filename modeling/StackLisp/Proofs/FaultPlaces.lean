import StackLisp.Proofs.Grammar
import StackLisp.Proofs.Tiling

/-! What the faults of a text are about. The scanner blames what it cannot scan, the reader a token,
and the analysis a datum within the form that it looks at. So every fault has an extent in the text,
and the faults of the analysis lie within their forms. -/
namespace StackLisp

/-! ### The analysis -/

namespace Expr

open Datum (fail)

theorem Inside.trans {x y z : Datum} (hxy : Inside x y) (hyz : Inside y z) : Inside x z := by
  induction hyz with
  | self => exact hxy
  | item hd _ ih => exact .item hd ih

/-- The fault is one of a datum that stands in `d`. -/
def Blamed (d : Datum) (f : LocatedFault) : Prop := ∃ x, Inside x d ∧ f = x.fail f.fault

theorem blamed_fail (d : Datum) (fault : Fault) : Blamed d (d.fail fault) := ⟨d, .self, rfl⟩

theorem Blamed.within {x d : Datum} {f : LocatedFault} (h : Blamed x f) (hx : Inside x d) :
    Blamed d f := by
  obtain ⟨y, hy, hf⟩ := h
  exact ⟨y, hy.trans hx, hf⟩

/-- Every fault of this part of the analysis has the property `P`. -/
def Blaming {α : Type} (P : LocatedFault → Prop) (x : Except LocatedFault α) : Prop :=
  ∀ f, x = .error f → P f

namespace Blaming

variable {α β : Type} {P Q : LocatedFault → Prop} {x : Except LocatedFault α}

theorem ok (a : α) : Blaming P (.ok a : Except LocatedFault α) := by
  intro f h
  cases h

theorem error {f : LocatedFault} (h : P f) : Blaming P (.error f : Except LocatedFault α) := by
  intro g hg
  cases hg
  exact h

theorem bind {k : α → Except LocatedFault β} (hx : Blaming P x) (hk : ∀ a, Blaming P (k a)) :
    Blaming P (x >>= k) := by
  intro f h
  cases x with
  | error g =>
    cases h
    exact hx _ rfl
  | ok a => exact hk a f h

theorem imp (hx : Blaming P x) (h : ∀ f, P f → Q f) : Blaming Q x := fun f hf => h f (hx f hf)

end Blaming

theorem blaming_ofAtom (t : Token) : Blaming (Blamed (.atom t)) (ofAtom t) := by
  -- the faults of numbers have the extent of their token, as those of names
  have hnumber : ∀ r, Blamed (.atom t) (numberFault t r) := by
    intro r
    have hstop : (if t.stop.line = t.start.line then t.stop else t.stop) = t.stop := ite_self _
    refine ⟨.atom t, .self, ?_⟩
    cases r with
    | malformed => exact congrArg (LocatedFault.mk _ _) hstop.symm
    | outOfRange => exact congrArg (LocatedFault.mk _ _) hstop.symm
  intro f h
  unfold ofAtom at h
  split at h
  · cases hread : Number.readInt t.literal with
    | error r =>
      rw [hread] at h
      cases h
      exact hnumber r
    | ok i =>
      rw [hread] at h
      cases h
  · cases hread : Number.readFloat t.literal with
    | error r =>
      rw [hread] at h
      cases h
      exact hnumber r
    | ok x =>
      rw [hread] at h
      cases h
  · cases h
  · cases h
  · split at h
    · cases h
    · split at h
      · cases h
      · split at h
        · cases h
          exact blamed_fail _ _
        · cases h

theorem blaming_symbol (role : String) (d : Datum) : Blaming (Blamed d) (symbol role d) := by
  cases d with
  | atom t =>
    rw [symbol]
    split
    · exact .error (blamed_fail _ _)
    · split
      · exact .error (blamed_fail _ _)
      · exact .ok _
  | list o items stop => exact .error (blamed_fail _ _)

theorem blaming_checkOperands (d : Datum) (word : Bytes) (range : OperandRange) (n : Nat) :
    Blaming (Blamed d) (checkOperands d word range n) := by
  unfold checkOperands
  split
  · exact .ok _
  · exact .error (blamed_fail _ _)

section
variable {P : LocatedFault → Prop} {ds : List Datum}

theorem blaming_parameters (h : ∀ d ∈ ds, ∀ f, Blamed d f → P f) : Blaming P (parameters ds) := by
  unfold parameters
  induction ds with
  | nil => exact .ok _
  | cons d ds ih =>
    obtain ⟨hd, hds⟩ := List.forall_mem_cons.1 h
    rw [List.mapM_cons]
    exact ((blaming_symbol _ d).imp hd).bind fun _ => (ih hds).bind fun _ => .ok _

theorem blaming_ofData (h : ∀ d ∈ ds, Blaming P (ofDatum d)) : Blaming P (ofData ds) := by
  induction ds with
  | nil => exact .ok _
  | cons d ds ih =>
    obtain ⟨hd, hds⟩ := List.forall_mem_cons.1 h
    rw [ofData]
    exact hd.bind fun _ => (ih hds).bind fun _ => .ok _

theorem blaming_ofBindings (h : ∀ d ∈ ds, ∀ f, Blamed d f → P f)
    (hparts : ∀ d ∈ ds, ∀ x, Inside x d → Blaming (Blamed x) (ofDatum x)) :
    Blaming P (ofBindings ds) := by
  induction ds with
  | nil => exact .ok _
  | cons d ds ih =>
    obtain ⟨hd, hds⟩ := List.forall_mem_cons.1 h
    obtain ⟨hinside, hrest⟩ := List.forall_mem_cons.1 hparts
    unfold ofBindings
    split
    · next heq => cases heq
    · next o first second stop rest heq =>
      cases heq
      have hfirst : Inside first (.list o [first, second] stop) := .item (.head _) .self
      have hsecond : Inside second (.list o [first, second] stop) :=
        .item (.tail _ (.head _)) .self
      have hname := (blaming_symbol "binding name" first).imp fun f hf => hd f (hf.within hfirst)
      have hvalue := (hinside second hsecond).imp fun f hf => hd f (hf.within hsecond)
      exact hname.bind fun _ => hvalue.bind fun _ => (ih hds hrest).bind fun _ => .ok _
    · next heq =>
      cases heq
      exact .error (hd _ (blamed_fail _ _))

end

theorem blaming_list {o : Token} {ds : List Datum} {stop : Position}
    (h : ∀ d ∈ ds, ∀ x, Inside x d → Blaming (Blamed x) (ofDatum x)) :
    Blaming (Blamed (.list o ds stop)) (ofDatum (.list o ds stop)) := by
  cases ds with
  | nil => exact .ok _
  | cons head ds =>
    have up (d : Datum) (hd : d ∈ head :: ds) (f : LocatedFault) (hf : Blamed d f) :
        Blamed (.list o (head :: ds) stop) f := hf.within (.item hd .self)
    have each (d : Datum) (hd : d ∈ head :: ds) :
        Blaming (Blamed (.list o (head :: ds) stop)) (ofDatum d) :=
      (h d hd d .self).imp (up d hd)
    have data (part : List Datum) (hpart : ∀ d ∈ part, d ∈ head :: ds) :
        Blaming (Blamed (.list o (head :: ds) stop)) (ofData part) :=
      blaming_ofData fun d hd => each d (hpart d hd)
    have names (role : String) (d : Datum) (hd : d ∈ head :: ds) :
        Blaming (Blamed (.list o (head :: ds) stop)) (symbol role d) :=
      (blaming_symbol role d).imp (up d hd)
    rw [ofDatum]
    split
    · exact (each head (.head _)).bind fun _ => (data ds fun _ hd => .tail _ hd).bind fun _ => .ok _
    · next word k hhead =>
      refine (blaming_checkOperands _ _ _ _).bind fun _ => ?_
      split
      · exact .error (up _ (.tail _ (.head _)) _ (blamed_fail _ _))
      · next p first params q body =>
        have hitem (d : Datum) (hd : d ∈ first :: params) (f : LocatedFault) (hf : Blamed d f) :=
          up (.list p (first :: params) q) (.tail _ (.head _)) f (hf.within (.item hd .self))
        refine ((blaming_symbol _ first).imp (hitem first (.head _))).bind fun _ => ?_
        refine (blaming_parameters fun d hd => hitem d (.tail _ hd)).bind fun _ => ?_
        exact (data body fun _ hd => .tail _ (.tail _ hd)).bind fun _ => .ok _
      · next target rest _ _ =>
        refine (blaming_checkOperands _ _ _ _).bind fun _ => ?_
        refine (names _ target (.tail _ (.head _))).bind fun _ => ?_
        split
        · exact (each _ (.tail _ (.tail _ (.head _)))).bind fun _ => .ok _
        · exact .ok _
      · refine (names _ _ (.tail _ (.head _))).bind fun _ => ?_
        exact (each _ (.tail _ (.tail _ (.head _)))).bind fun _ => .ok _
      · next p params q body =>
        have hitem (d : Datum) (hd : d ∈ params) (f : LocatedFault) (hf : Blamed d f) :=
          up (.list p params q) (.tail _ (.head _)) f (hf.within (.item hd .self))
        refine (blaming_parameters hitem).bind fun _ => ?_
        exact (data body fun _ hd => .tail _ (.tail _ hd)).bind fun _ => .ok _
      · exact .error (up _ (.tail _ (.head _)) _ (blamed_fail _ _))
      · next p bindings q body =>
        have hitem (d : Datum) (hd : d ∈ bindings) (f : LocatedFault) (hf : Blamed d f) :=
          up (.list p bindings q) (.tail _ (.head _)) f (hf.within (.item hd .self))
        refine (blaming_ofBindings hitem fun d hd x hx => ?_).bind fun _ => ?_
        · exact h _ (.tail _ (.head _)) x (.item hd hx)
        · exact (data body fun _ hd => .tail _ (.tail _ hd)).bind fun _ => .ok _
      · exact .error (up _ (.tail _ (.head _)) _ (blamed_fail _ _))
      · exact (data _ fun _ hd => .tail _ hd).bind fun _ => .ok _
      · refine (each _ (.tail _ (.head _))).bind fun _ => ?_
        exact (each _ (.tail _ (.tail _ (.head _)))).bind fun _ => .ok _
      · refine (each _ (.tail _ (.head _))).bind fun _ => ?_
        refine (each _ (.tail _ (.tail _ (.head _)))).bind fun _ => ?_
        exact (each _ (.tail _ (.tail _ (.tail _ (.head _))))).bind fun _ => .ok _
      · exact (data _ fun _ hd => .tail _ hd).bind fun _ => .ok _
      · exact (data _ fun _ hd => .tail _ hd).bind fun _ => .ok _
      · refine (each _ (.tail _ (.head _))).bind fun _ => ?_
        exact (data _ fun _ hd => .tail _ (.tail _ hd)).bind fun _ => .ok _
      · exact .ok _

/-- The analysis blames a datum of the form. -/
theorem blamed_of_ofDatum {d : Datum} {f : LocatedFault} (h : ofDatum d = .error f) :
    Blamed d f := by
  have hall : ∀ x, Inside x d → Blaming (Blamed x) (ofDatum x) := by
    clear h
    induction d using Datum.induction with
    | atom t =>
      rintro x ⟨⟩
      rw [ofDatum]
      exact blaming_ofAtom t
    | list o items stop ih =>
      intro x hx
      cases hx with
      | self => exact blaming_list ih
      | item hd hx => exact ih _ hd x hx
  exact hall d .self f h

end Expr

/-! ### The reader -/

namespace Datum

variable {limit : Int} {ending : Ending} {levels : List Level} {ts left : List Token} {d : Datum}
  {f : LocatedFault}

theorem fault_of_passed (h : passed ending d left = .error f) :
    ∃ g, ending = .failed g ∧ f = g.located := by
  unfold passed at h
  split at h
  · next g =>
    cases h
    exact ⟨g, rfl, rfl⟩
  · cases h

/-- The fault is that of one of the tokens, or of the scanner behind them. -/
def BlamesToken (ts : List Token) (ending : Ending) (f : LocatedFault) : Prop :=
  (∃ t ∈ ts, f = ⟨f.fault, t.start, t.stop⟩) ∨ ∃ g, ending = .failed g ∧ f = g.located

theorem BlamesToken.mono {more : List Token} (h : BlamesToken ts ending f) (hsub : ts ⊆ more) :
    BlamesToken more ending f := by
  rcases h with ⟨t, ht, hf⟩ | hscanner
  · exact .inl ⟨t, hsub ht, hf⟩
  · exact .inr hscanner

theorem blamesToken_of_readWithin (hne : levels = [] → ts = [] → ∃ g, ending = .failed g)
    (h : readWithin limit ending levels ts = .error f) :
    BlamesToken (levels.map Level.opening ++ ts) ending f := by
  fun_induction readWithin limit ending levels ts with
  | case1 levels =>
    cases h
    cases ending with
    | failed g => exact .inr ⟨g, rfl, rfl⟩
    | finished place =>
      cases levels with
      | nil =>
        obtain ⟨g, hg⟩ := hne rfl rfl
        cases hg
      | cons l outer => exact .inl ⟨l.opening, by simp, rfl⟩
  | case2 levels t rest hk hdeep =>
    cases h
    exact .inl ⟨t, by simp, rfl⟩
  | case3 levels t rest hk hdeep ih =>
    refine (ih (fun hnil => by cases hnil) h).mono fun t' ht' => ?_
    simp only [List.map_cons, List.mem_append, List.mem_cons] at ht' ⊢
    grind
  | case4 levels t rest hk =>
    cases h
    exact .inl ⟨t, by simp, rfl⟩
  | case5 t rest hk =>
    cases h
    exact .inl ⟨t, by simp, rfl⟩
  | case6 t rest hk l e => exact .inr (fault_of_passed h)
  | case7 t rest hk l e m outer ih =>
    refine (ih (fun hnil => by cases hnil) h).mono fun t' ht' => ?_
    simp only [List.map_cons, List.mem_append, List.mem_cons] at ht' ⊢
    grind
  | case8 t rest => exact .inr (fault_of_passed h)
  | case9 t rest l outer _ _ _ ih =>
    refine (ih (fun hnil => by cases hnil) h).mono fun t' ht' => ?_
    simp only [List.map_cons, List.mem_append, List.mem_cons] at ht' ⊢
    grind

/-- The reader blames a token that it was given, unless the scanner failed. -/
theorem blamesToken_of_read (hne : ts = [] → ∃ g, ending = .failed g)
    (h : read limit ending ts = .error f) : BlamesToken ts ending f :=
  blamesToken_of_readWithin (fun _ => hne) h

/-- What is read are the tokens of a datum. -/
theorem grammar_of_read (h : read limit ending ts = .ok (d, left)) :
    ∃ own, ts = own ++ left ∧ Grammar [d] own := by
  have hne : ts ≠ [] := by
    rintro rfl
    cases h
  obtain ⟨own, hts, hd, -⟩ := (read_ok_iff hne).1 (readWithin_finished h {})
  exact ⟨own, hts, hd⟩

/-- No token is left behind a datum only where the text ends. -/
theorem finished_of_readWithin (h : readWithin limit ending levels ts = .ok (d, [])) :
    ∃ place, ending = .finished place := by
  have hpassed {e : Datum} {rest : List Token} (hp : passed ending e rest = .ok (d, [])) :
      ∃ place, ending = .finished place := by
    obtain ⟨-, hrest⟩ := passed_eq hp
    rw [← hrest] at hp
    cases ending with
    | finished place => exact ⟨place, rfl⟩
    | failed g => cases hp
  fun_induction readWithin limit ending levels ts with
  | case1 | case2 | case4 | case5 => cases h
  | case3 _ _ _ _ _ ih => exact ih h
  | case6 => exact hpassed h
  | case7 _ _ _ _ _ _ _ ih => exact ih h
  | case8 => exact hpassed h
  | case9 _ _ _ _ _ _ _ ih => exact ih h

end Datum

/-! ### Tokens and data in their order -/

/-- Tokens that are not empty and stand one behind the other. -/
def Token.Ordered (ts : List Token) : Prop :=
  (∀ t ∈ ts, t.start.offset < t.stop.offset) ∧
    ts.Pairwise fun a b => a.stop.offset ≤ b.start.offset

theorem Token.Ordered.sublist {ts more : List Token} (h : Ordered more) (hsub : ts.Sublist more) :
    Ordered ts :=
  ⟨fun t ht => h.1 t (hsub.subset ht), h.2.sublist hsub⟩

namespace Datum.Grammar

variable {ds : List Datum} {d x : Datum} {own : List Token}

theorem member (h : Grammar ds own) (hd : d ∈ ds) : ∃ part, Grammar [d] part ∧ part <:+: own := by
  induction h with
  | nil => cases hd
  | @atom t ds ts ht _ ih =>
    rcases List.mem_cons.1 hd with rfl | hd
    · exact ⟨[t], .atom ht .nil, (List.prefix_append [t] ts).isInfix⟩
    · obtain ⟨part, hpart, hamong⟩ := ih hd
      exact ⟨part, hpart, hamong.trans (List.suffix_cons t ts).isInfix⟩
  | @list o c items inner ds ts ho hc hitems _ _ ih =>
    rcases List.mem_cons.1 hd with rfl | hd
    · refine ⟨o :: (inner ++ [c]), .list ho hc hitems .nil, List.IsPrefix.isInfix ⟨ts, ?_⟩⟩
      rw [List.cons_append, List.append_assoc, List.singleton_append]
    · obtain ⟨part, hpart, hamong⟩ := ih hd
      have hsuffix : ts <:+ o :: (inner ++ c :: ts) :=
        ⟨o :: (inner ++ [c]), by rw [List.cons_append, List.append_assoc, List.singleton_append]⟩
      exact ⟨part, hpart, hamong.trans hsuffix.isInfix⟩

/-- What stands in a datum has its tokens among those of the datum. -/
theorem inside (h : Grammar [d] own) (hx : Expr.Inside x d) :
    ∃ part, Grammar [x] part ∧ part <:+: own := by
  induction hx generalizing own with
  | self => exact ⟨own, h, List.infix_rfl⟩
  | @item opening _ _ _ hd _ ih =>
    cases h with
    | @list _ c _ inner _ _ _ _ hitems hnil =>
      cases hnil
      obtain ⟨part, hpart, hinner⟩ := hitems.member hd
      obtain ⟨sub, hsub, hamong⟩ := ih hpart
      have houter : inner <:+: opening :: (inner ++ [c]) := ⟨[opening], [c], rfl⟩
      exact ⟨sub, hsub, (hamong.trans hinner).trans houter⟩

theorem token_mem (h : Grammar [d] own) : d.token ∈ own := by
  cases h with
  | atom => exact List.mem_cons_self
  | list => exact List.mem_cons_self

theorem exists_stop (h : Grammar [d] own) : ∃ t ∈ own, own.getLast? = some t ∧ t.stop = d.stop := by
  obtain ⟨t, ht, hstop⟩ := Option.map_eq_some_iff.1 h.stop_eq
  exact ⟨t, List.mem_of_getLast? ht, ht, hstop⟩

/-- A datum reaches from the start of its first token to the end of its last. -/
theorem encloses (h : Grammar [d] own) (ho : Token.Ordered own) :
    ∀ t ∈ own, d.start.offset ≤ t.start.offset ∧ t.stop.offset ≤ d.stop.offset := by
  obtain ⟨hsize, hpairs⟩ := ho
  cases h with
  | @atom t _ _ _ hnil =>
    cases hnil
    intro t' ht'
    obtain rfl := List.mem_singleton.1 ht'
    exact ⟨Nat.le_refl _, Nat.le_refl _⟩
  | @list o c _ inner _ _ _ _ _ hnil =>
    cases hnil
    have hopening := hsize o (by simp)
    have hclosing := hsize c (by simp)
    rw [List.pairwise_cons, List.pairwise_append] at hpairs
    obtain ⟨hafter, -, -, hbefore⟩ := hpairs
    have hends : o.stop.offset ≤ c.start.offset := hafter c (by simp)
    intro t ht
    show o.start.offset ≤ t.start.offset ∧ t.stop.offset ≤ c.stop.offset
    rcases List.mem_cons.1 ht with rfl | ht
    · omega
    · have hstart := hafter t ht
      rcases List.mem_append.1 ht with hinner | hlast
      · have hstop := hbefore t hinner c (List.mem_singleton_self c)
        omega
      · obtain rfl := List.mem_singleton.1 hlast
        omega

/-- The faults of the analysis are not empty and lie within the form. -/
theorem fault_within {f : LocatedFault} (h : Grammar [d] own) (ho : Token.Ordered own)
    (hf : Expr.Blamed d f) : d.start.offset ≤ f.start.offset ∧ f.start.offset < f.stop.offset ∧
      f.stop.offset ≤ d.stop.offset := by
  obtain ⟨x, hx, hfail⟩ := hf
  obtain ⟨part, hpart, hamong⟩ := h.inside hx
  obtain ⟨t, ht, -, hstop⟩ := hpart.exists_stop
  have hfirst := hpart.token_mem
  -- the ends of the inner datum are those of two of its tokens
  have hsize := ho.1 x.token (hamong.subset hfirst)
  have hinner := hpart.encloses (ho.sublist hamong.sublist) x.token hfirst
  have hstart := (h.encloses ho x.token (hamong.subset hfirst)).1
  have hend := (h.encloses ho t (hamong.subset ht)).2
  rw [hstop] at hend
  rw [hfail]
  show d.start.offset ≤ x.token.start.offset ∧ x.token.start.offset < _ ∧ _
  unfold Datum.fail
  dsimp only
  split <;> omega

end Datum.Grammar

namespace Tiles

variable {file text : Bytes} {n : Nat} {ts own left : List Token} {ending : Ending}

theorem placed (h : Tiles file text n ts ending) :
    ∀ t ∈ ts, t.Placed file text ∧ n ≤ t.start.offset := by
  induction h with
  | finished | failed => exact List.forall_mem_nil _
  | @token n t ts ending hle _ hplaced _ ih =>
    refine List.forall_mem_cons.2 ⟨⟨hplaced, hle⟩, fun t' ht' => ?_⟩
    have hnonempty := hplaced.nonempty
    obtain ⟨hplaced', hle'⟩ := ih t' ht'
    exact ⟨hplaced', by omega⟩

theorem ordered (h : Tiles file text n ts ending) : Token.Ordered ts := by
  induction h with
  | finished | failed => exact ⟨List.forall_mem_nil _, .nil⟩
  | @token n t ts ending _ _ hplaced hrest ih =>
    refine ⟨List.forall_mem_cons.2 ⟨hplaced.nonempty, ih.1⟩, ?_⟩
    exact List.pairwise_cons.2 ⟨fun t' ht' => (hrest.placed t' ht').2, ih.2⟩

/-- A fault of the scanner lies behind the tokens. -/
theorem fault {g : ScanFault} (h : Tiles file text n ts (.failed g)) :
    g.Placed file text ∧ n ≤ g.tokenStart.offset := by
  generalize hending : Ending.failed g = ending at h
  induction h with
  | finished => cases hending
  | failed hle _ hplaced =>
    cases hending
    exact ⟨hplaced, hle⟩
  | token hle _ hplaced _ ih =>
    have hnonempty := hplaced.nonempty
    obtain ⟨hfault, hle'⟩ := ih hending
    exact ⟨hfault, by omega⟩

/-- Behind some tokens the text goes on where the last of them ends. -/
theorem behind {t : Token} (h : Tiles file text n (own ++ left) ending)
    (hlast : own.getLast? = some t) : Tiles file text t.stop.offset left ending := by
  induction own generalizing n with
  | nil => cases hlast
  | cons first own ih =>
    cases h with
    | token _ _ _ hrest =>
      cases own with
      | nil =>
        cases hlast
        exact hrest
      | cons second own =>
        rw [List.getLast?_cons_cons] at hlast
        exact ih hrest hlast

end Tiles
end StackLisp
