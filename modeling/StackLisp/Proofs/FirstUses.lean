import Mathlib.Data.List.Induction
import StackLisp.Proofs.Naming

/-! The free names of a function are listed in the order in which an evaluation first comes to
them. The places of an expression are the ways to them from the outside, which part to take each
time, so that the lexicographic order of the places is the order of evaluation. -/
namespace StackLisp.Expr

/-- The direct parts of an expression in the order in which they are evaluated, each with the names
that the expression binds around it. The values of a `let` do not see its names. -/
def parts : Expr → List (List Bytes × Expr)
  | lambda _ name params body => body.map (Prod.mk (boundBy name params))
  | letIn _ bindings body =>
    bindings.map (fun b => ([], b.value)) ++ body.map (Prod.mk (bindings.map Binding.name))
  | e => e.children.map (Prod.mk [])

/-- The name `n` stands at a place of an expression, and nothing on the way there binds it. -/
inductive FreeAt (n : Bytes) : Expr → List Nat → Prop where
  | here {pos : Position} : FreeAt n (ident pos n) []
  | inside {e : Expr} {k : Nat} {p : List Bytes × Expr} {place : List Nat} :
      e.parts[k]? = some p → n ∉ p.1 → FreeAt n p.2 place → FreeAt n e (k :: place)

theorem part_induction {P : Expr → Prop} (h : ∀ e : Expr, (∀ p ∈ e.parts, P p.2) → P e)
    (e : Expr) : P e := by
  induction e using Expr.induction with
  | literal pos v => exact h _ (by simp [parts, children])
  | ident pos n => exact h _ (by simp [parts, children])
  | call pos fn args ihfn ihargs => exact h _ (by simpa [parts, children] using ⟨ihfn, ihargs⟩)
  | cond pos test yes no ihtest ihyes ihno =>
    exact h _ (by simpa [parts, children] using ⟨ihtest, ihyes, ihno⟩)
  | lambda pos name params body ih => exact h _ (by simpa [parts] using ih)
  | define pos name value ih => exact h _ (by simpa [parts, children] using ih)
  | const pos name value ih => exact h _ (by simpa [parts, children] using ih)
  | letIn pos bindings body ihvalues ihbody =>
    refine h _ fun p hp => ?_
    rcases List.mem_append.1 hp with hp | hp
    · obtain ⟨b, hb, rfl⟩ := List.mem_map.1 hp
      exact ihvalues b hb
    · obtain ⟨e, he, rfl⟩ := List.mem_map.1 hp
      exact ihbody e he
  | block pos body ih => exact h _ (by simpa [parts, children] using ih)
  | and pos operands ih => exact h _ (by simpa [parts, children] using ih)
  | or pos operands ih => exact h _ (by simpa [parts, children] using ih)
  | apply pos fn args ihfn ihargs => exact h _ (by simpa [parts, children] using ⟨ihfn, ihargs⟩)

/-! ### Collecting follows the parts -/

/-- Collects the names of several parts, one after the other. -/
def collectParts (bound : List Bytes) (ps : List (List Bytes × Expr)) (found : List Bytes) :
    List Bytes :=
  ps.foldl (fun found p => collectFree (p.1 ++ bound) found p.2) found

theorem collectFreeAll_eq (bound found : List Bytes) (es : List Expr) :
    collectFreeAll bound found es = es.foldl (collectFree bound) found := by
  induction es generalizing found with
  | nil => rfl
  | cons e es ih => exact ih _

theorem collectFreeValues_eq (bound found : List Bytes) (bs : List (Binding Expr)) :
    collectFreeValues bound found bs =
      bs.foldl (fun found b => collectFree bound found b.value) found := by
  induction bs generalizing found with
  | nil => rfl
  | cons b bs ih => exact ih _

/-- What is not a name adds the names of its parts. -/
theorem collectFree_eq_collectParts {e : Expr} (h : ∀ pos n, e ≠ ident pos n)
    (bound found : List Bytes) :
    collectFree bound found e = collectParts bound e.parts found := by
  unfold collectParts
  cases e with
  | ident pos n => exact absurd rfl (h pos n)
  | literal pos v => rfl
  | define pos name value => rfl
  | const pos name value => rfl
  | cond pos test yes no => cases no <;> rfl
  | lambda pos name params body => simp [collectFree, collectFreeAll_eq, parts, List.foldl_map]
  | letIn pos bindings body =>
    simp [collectFree, collectFreeAll_eq, collectFreeValues_eq, parts, List.foldl_map]
  | _ => simp [collectFree, collectFreeAll_eq, parts, children, List.foldl_map]

/-! ### The uses of names -/

/-- The places of names, in their order, that make up what is collected: those at which a name
stands as `At` says. -/
structure Uses (At : List Nat → Bytes → Prop) (collect : List Bytes → List Bytes)
    (uses : List (List Nat × Bytes)) : Prop where
  collected : ∀ found, collect found = (uses.map Prod.snd).foldl addOnce found
  sorted : uses.Pairwise fun a b => a.1 < b.1
  mem : ∀ place n, (place, n) ∈ uses ↔ At place n

/-- The uses of the names of an expression that are not bound around it. -/
abbrev UsesOf (e : Expr) (bound : List Bytes) : List (List Nat × Bytes) → Prop :=
  Uses (fun place n => n ∉ bound ∧ e.FreeAt n place) fun found => collectFree bound found e

/-- A name that is not bound around the parts is free in one of them. -/
def FreeInParts (bound : List Bytes) (ps : List (List Bytes × Expr)) (place : List Nat)
    (n : Bytes) : Prop :=
  n ∉ bound ∧ ∃ k p inner, place = k :: inner ∧ ps[k]? = some p ∧ n ∉ p.1 ∧ p.2.FreeAt n inner

/-- The uses in one more part stand behind those in the parts before it. -/
theorem Uses.snoc {bound : List Bytes} {ps : List (List Bytes × Expr)} {p : List Bytes × Expr}
    {us vs : List (List Nat × Bytes)}
    (hps : Uses (FreeInParts bound ps) (collectParts bound ps) us)
    (hp : p.2.UsesOf (p.1 ++ bound) vs) :
    Uses (FreeInParts bound (ps ++ [p])) (collectParts bound (ps ++ [p]))
      (us ++ vs.map fun u => (ps.length :: u.1, u.2)) := by
  constructor
  case collected =>
    intro found
    have hfirst : collectParts bound (ps ++ [p]) found =
        collectFree (p.1 ++ bound) (collectParts bound ps found) p.2 := by
      simp [collectParts]
    rw [hfirst, hp.collected, hps.collected, List.map_append, List.foldl_append, List.map_map]
    rfl
  case sorted =>
    refine List.pairwise_append.2 ⟨hps.sorted, ?_, fun a ha b hb => ?_⟩
    · refine List.pairwise_map.2 (hp.sorted.imp fun h => ?_)
      exact List.cons_lt_cons_iff.2 (.inr ⟨rfl, h⟩)
    · obtain ⟨-, k, q, inner, hplace, hk, -⟩ := (hps.mem a.1 a.2).1 ha
      obtain ⟨v, -, rfl⟩ := List.mem_map.1 hb
      rw [hplace]
      exact List.cons_lt_cons_iff.2 (.inl (List.getElem?_eq_some_iff.1 hk).1)
  case mem =>
    intro place n
    rw [List.mem_append, hps.mem]
    constructor
    · rintro (⟨hbound, k, q, inner, rfl, hk, hfree⟩ | hmem)
      · have hlt := (List.getElem?_eq_some_iff.1 hk).1
        exact ⟨hbound, k, q, inner, rfl, by rw [List.getElem?_append_left hlt, hk], hfree⟩
      · obtain ⟨v, hv, heq⟩ := List.mem_map.1 hmem
        cases heq
        obtain ⟨hout, hfree⟩ := (hp.mem v.1 v.2).1 hv
        rw [List.mem_append, not_or] at hout
        exact ⟨hout.2, _, p, v.1, rfl, List.getElem?_concat_length, hout.1, hfree⟩
    · rintro ⟨hbound, k, q, inner, rfl, hk, hout, hfree⟩
      by_cases hlt : k < ps.length
      · rw [List.getElem?_append_left hlt] at hk
        exact .inl ⟨hbound, k, q, inner, rfl, hk, hout, hfree⟩
      · have hle := (List.getElem?_eq_some_iff.1 hk).1
        obtain rfl : k = ps.length := by
          rw [List.length_append, List.length_singleton] at hle
          omega
        rw [List.getElem?_concat_length] at hk
        cases hk
        have hmem := (hp.mem inner n).2 ⟨by simp [hout, hbound], hfree⟩
        exact .inr (List.mem_map.2 ⟨_, hmem, rfl⟩)

theorem exists_uses_parts {ps : List (List Bytes × Expr)}
    (h : ∀ p ∈ ps, ∀ bound, ∃ us, p.2.UsesOf bound us) (bound : List Bytes) :
    ∃ us, Uses (FreeInParts bound ps) (collectParts bound ps) us := by
  induction ps using List.reverseRecOn with
  | nil => exact ⟨[], fun _ => rfl, .nil, by simp [FreeInParts]⟩
  | append_singleton ps p ih =>
    obtain ⟨us, hus⟩ := ih fun q hq => h q (List.mem_append_left _ hq)
    obtain ⟨vs, hvs⟩ := h p (List.mem_append_right _ (.head _)) (p.1 ++ bound)
    exact ⟨_, hus.snoc hvs⟩

theorem exists_usesOf_ident (pos : Position) (m : Bytes) (bound : List Bytes) :
    ∃ us, (ident pos m).UsesOf bound us := by
  have hfree : ∀ place n, (ident pos m).FreeAt n place ↔ place = [] ∧ n = m := by
    intro place n
    refine ⟨fun h => ?_, fun ⟨hplace, hn⟩ => hplace ▸ hn ▸ .here⟩
    cases h with
    | here => exact ⟨rfl, rfl⟩
    | inside hk => cases hk
  by_cases hm : m ∈ bound
  · refine ⟨[], fun found => by simp [collectFree, hm], .nil, fun place n => ?_⟩
    simp only [List.not_mem_nil, hfree, false_iff]
    rintro ⟨hn, -, rfl⟩
    exact hn hm
  · refine ⟨[([], m)], fun found => by simp [collectFree, hm], by simp, fun place n => ?_⟩
    simp only [List.mem_singleton, Prod.mk.injEq, hfree]
    exact ⟨fun h => ⟨h.2 ▸ hm, h⟩, And.right⟩

/-- What is collected from an expression are its free names, as it comes to them. -/
theorem exists_usesOf (e : Expr) (bound : List Bytes) : ∃ us, e.UsesOf bound us := by
  induction e using part_induction generalizing bound with
  | h e ih =>
  by_cases hident : ∃ pos m, e = ident pos m
  · obtain ⟨pos, m, rfl⟩ := hident
    exact exists_usesOf_ident pos m bound
  · have hother : ∀ pos n, e ≠ ident pos n := fun pos n heq => hident ⟨pos, n, heq⟩
    obtain ⟨us, hus⟩ := exists_uses_parts ih bound
    refine ⟨us, fun found => ?_, hus.sorted, fun place n => (hus.mem place n).trans ?_⟩
    · exact (collectFree_eq_collectParts hother bound found).trans (hus.collected found)
    · refine and_congr_right fun _ => ⟨?_, fun h => ?_⟩
      · rintro ⟨k, p, inner, rfl, hk, hout, hfree⟩
        exact .inside hk hout hfree
      · cases h with
        | here => exact absurd rfl (hother _ _)
        | inside hk hout hfree => exact ⟨_, _, _, rfl, hk, hout, hfree⟩

/-! ### First uses -/

theorem mem_addOnce {n m : Bytes} {names : List Bytes} :
    n ∈ addOnce names m ↔ n ∈ names ∨ n = m := by
  unfold addOnce
  split
  · next h =>
    refine ⟨.inl, fun hn => hn.elim id ?_⟩
    rintro rfl
    exact h
  · simp

/-- The names that stand somewhere, once each and in the order of their first places. -/
structure ByFirstUse (At : List Nat → Bytes → Prop) (names : List Bytes) : Prop where
  nodup : names.Nodup
  mem : ∀ n, n ∈ names ↔ ∃ place, At place n
  sorted : names.Pairwise fun m n => ∃ place, At place m ∧ ∀ place', At place' n → place < place'

/-- A use behind all others adds its name at the end, or nothing. -/
theorem ByFirstUse.addOnce {us : List (List Nat × Bytes)} {names : List Bytes}
    {u : List Nat × Bytes} (h : ByFirstUse (fun place n => (place, n) ∈ us) names)
    (hlast : ∀ a ∈ us, a.1 < u.1) :
    ByFirstUse (fun place n => (place, n) ∈ us ++ [u]) (Expr.addOnce names u.2) := by
  have hmem : ∀ n, n ∈ Expr.addOnce names u.2 ↔ ∃ place, (place, n) ∈ us ++ [u] := by
    intro n
    rw [mem_addOnce, h.mem]
    constructor
    · rintro (⟨place, hn⟩ | rfl)
      · exact ⟨place, List.mem_append_left _ hn⟩
      · exact ⟨u.1, List.mem_append_right _ (.head _)⟩
    · rintro ⟨place, hn⟩
      rcases List.mem_append.1 hn with hn | hn
      · exact .inl ⟨place, hn⟩
      · exact .inr (congrArg Prod.snd (List.mem_singleton.1 hn))
  -- the first use of a name stays the first when the new use is one of a later name
  have hkept : names.Pairwise fun m n => ∃ place, (place, m) ∈ us ++ [u] ∧
      ∀ place', (place', n) ∈ us ++ [u] → place < place' := by
    refine h.sorted.imp fun ⟨place, hm, hfirst⟩ => ⟨place, List.mem_append_left _ hm, ?_⟩
    intro place' hn
    rcases List.mem_append.1 hn with hn | hn
    · exact hfirst place' hn
    · have hu : u.1 = place' := congrArg Prod.fst (List.mem_singleton.1 hn).symm
      exact hu ▸ hlast _ hm
  by_cases hold : u.2 ∈ names
  · have hsame : Expr.addOnce names u.2 = names := if_pos hold
    exact ⟨by rw [hsame]; exact h.nodup, hmem, by rw [hsame]; exact hkept⟩
  · have hnew : Expr.addOnce names u.2 = names ++ [u.2] := if_neg hold
    refine ⟨?_, hmem, ?_⟩
    · rw [hnew]
      exact List.nodup_append.2 ⟨h.nodup, by simp, fun m hm n hn heq =>
        hold (List.mem_singleton.1 hn ▸ heq ▸ hm)⟩
    · rw [hnew]
      refine List.pairwise_append.2 ⟨hkept, by simp, fun m hm n hn => ?_⟩
      obtain ⟨place, hplace⟩ := (h.mem m).1 hm
      refine ⟨place, List.mem_append_left _ hplace, fun place' hn' => ?_⟩
      rcases List.mem_append.1 hn' with hn' | hn'
      · exact absurd ((h.mem n).2 ⟨place', hn'⟩) (List.mem_singleton.1 hn ▸ hold)
      · have hu : u.1 = place' := congrArg Prod.fst (List.mem_singleton.1 hn').symm
        exact hu ▸ hlast _ hplace

theorem byFirstUse_foldl {us : List (List Nat × Bytes)} (h : us.Pairwise fun a b => a.1 < b.1) :
    ByFirstUse (fun place n => (place, n) ∈ us) ((us.map Prod.snd).foldl Expr.addOnce []) := by
  induction us using List.reverseRecOn with
  | nil => exact ⟨.nil, by simp, .nil⟩
  | append_singleton us u ih =>
    obtain ⟨hsorted, -, hlast⟩ := List.pairwise_append.1 h
    rw [List.map_append, List.foldl_append]
    exact (ih hsorted).addOnce fun a ha => hlast a ha u (.head _)

theorem byFirstUse_freeNames (pos : Position) (name : Bytes) (params : List Bytes)
    (body : List Expr) :
    ByFirstUse (fun place n => (lambda pos name params body).FreeAt n place)
      (freeNames name params body) := by
  obtain ⟨us, hus⟩ := exists_usesOf (lambda pos name params body) []
  have hnames : freeNames name params body = (us.map Prod.snd).foldl Expr.addOnce [] := by
    rw [← hus.collected [], collectFree, List.append_nil, freeNames]
  have hat : (fun place n => (place, n) ∈ us) =
      fun place n => (lambda pos name params body).FreeAt n place := by
    funext place n
    exact propext ((hus.mem place n).trans (by simp))
  rw [hnames, ← hat]
  exact byFirstUse_foldl hus.sorted

/-- The free names of a function are, without repetition, exactly those that stand somewhere in its
body where neither the function, by its parameters or its own name, nor a `let` or a function on
the way binds them. Each has a place before all places of the names that follow it. -/
theorem freeNames_firstUses (pos : Position) (name : Bytes) (params : List Bytes)
    (body : List Expr) :
    (freeNames name params body).Nodup ∧
    (∀ n, n ∈ freeNames name params body ↔
      ∃ place, (lambda pos name params body).FreeAt n place) ∧
    (freeNames name params body).Pairwise fun m n =>
      ∃ place, (lambda pos name params body).FreeAt m place ∧
        ∀ place', (lambda pos name params body).FreeAt n place' → place < place' := by
  have h := byFirstUse_freeNames pos name params body
  exact ⟨h.nodup, h.mem, h.sorted⟩

-- `x` is bound in the `let` and in the function of this name, and free behind them
example : freeNames [] [[97]] [letIn {} [⟨[120], {}, ident {} [121]⟩] [ident {} [120]],
    lambda {} [120] [] [call {} (ident {} [120]) [ident {} [97]]], ident {} [120]] =
      [[121], [120]] := by decide

end StackLisp.Expr
