import StackLisp.Proofs.CallCounts
import StackLisp.Proofs.Locations

/-! Tables of locations. A table may be given in any order, and halving it finds the same entry for
an offset as going through it. The tables of compiled functions follow the instructions from the
first one on. -/
namespace StackLisp

open Fragment (op instr)
open Lower

/-! ### Tables in any order -/

/-- Of the entries of a table that start at or before an offset, `l` starts last, and among equals
it is given last. -/
def SourceLocation.Governs (l : SourceLocation) (table : List SourceLocation) (offset : Int) :
    Prop :=
  l.offset ≤ offset ∧ ∃ front back, table = front ++ l :: back ∧
    (∀ m ∈ front, m.offset ≤ offset → m.offset ≤ l.offset) ∧
    ∀ m ∈ back, m.offset ≤ offset → m.offset < l.offset

/-- Only one entry governs an offset. -/
theorem SourceLocation.Governs.unique {l l' : SourceLocation} {table : List SourceLocation}
    {offset : Int} (h : l.Governs table offset) (h' : l'.Governs table offset) : l = l' := by
  -- Of two such entries, the later one would start before the other and not before it.
  have apart {l l' : SourceLocation} {front back front' back' between : List SourceLocation}
      (hle : l.offset ≤ offset) (hle' : l'.offset ≤ offset)
      (hback : ∀ m ∈ back, m.offset ≤ offset → m.offset < l.offset)
      (hfront' : ∀ m ∈ front', m.offset ≤ offset → m.offset ≤ l'.offset)
      (hfront : front' = front ++ between) (hsplit : l :: back = between ++ l' :: back') :
      l = l' := by
    cases between with
    | nil => exact (List.cons.inj hsplit).1
    | cons m between =>
      obtain ⟨rfl, rfl⟩ := List.cons.inj hsplit
      have hlt := hback l' (List.mem_append_right _ List.mem_cons_self) hle'
      have hge := hfront' l (hfront ▸ List.mem_append_right _ List.mem_cons_self) hle
      omega
  obtain ⟨hle, front, back, rfl, hfront, hback⟩ := h
  obtain ⟨hle', front', back', htable, hfront', hback'⟩ := h'
  rcases List.append_eq_append_iff.1 htable with ⟨between, hf, hb⟩ | ⟨between, hf, hb⟩
  · exact apart hle hle' hback hfront' hf hb
  · exact (apart hle' hle hback' hfront hf hb).symm

namespace SourceLocation

theorem startsWithin_trans (a b c : SourceLocation) (h : decide (a.offset ≤ b.offset) = true)
    (h' : decide (b.offset ≤ c.offset) = true) : decide (a.offset ≤ c.offset) = true :=
  decide_eq_true (Int.le_trans (of_decide_eq_true h) (of_decide_eq_true h'))

theorem startsWithin_total (a b : SourceLocation) :
    (decide (a.offset ≤ b.offset) || decide (b.offset ≤ a.offset)) = true := by
  rw [Bool.or_eq_true, decide_eq_true_eq, decide_eq_true_eq]
  exact Int.le_total _ _

theorem takeWhile_eq_filter {table : List SourceLocation} (offset : Int)
    (h : table.Pairwise fun a b => a.offset ≤ b.offset) :
    (table.takeWhile fun l => l.offset ≤ offset) = table.filter fun l => l.offset ≤ offset := by
  induction table with
  | nil => rfl
  | cons l table ih =>
    obtain ⟨hl, htable⟩ := List.pairwise_cons.1 h
    by_cases hle : l.offset ≤ offset
    · rw [List.takeWhile_cons, List.filter_cons, decide_eq_true hle, ← ih htable]
      rfl
    · have hnone : ∀ m ∈ table, ¬ decide (m.offset ≤ offset) = true := fun m hm hm' =>
        hle (Int.le_trans (hl m hm) (of_decide_eq_true hm'))
      rw [List.takeWhile_cons, List.filter_cons, decide_eq_false hle,
        List.filter_eq_nil_iff.2 hnone]
      rfl

end SourceLocation

namespace Function

open SourceLocation

theorem normalize_sorted (f : Function) :
    f.normalize.locations.Pairwise fun a b => a.offset ≤ b.offset :=
  (List.pairwise_mergeSort startsWithin_trans startsWithin_total f.locations).imp of_decide_eq_true

/-- Entries with one offset keep their order. -/
theorem filter_normalize (f : Function) (start : Int) :
    (f.normalize.locations.filter fun l => l.offset = start) =
      f.locations.filter fun l => l.offset = start := by
  have hsorted : (f.locations.filter fun l => l.offset = start).Pairwise fun a b =>
      decide (a.offset ≤ b.offset) = true := by
    refine List.pairwise_of_forall_mem_list fun a ha b hb => decide_eq_true ?_
    have ha := of_decide_eq_true (List.mem_filter.1 ha).2
    have hb := of_decide_eq_true (List.mem_filter.1 hb).2
    omega
  have hsublist := (List.sublist_mergeSort startsWithin_trans startsWithin_total hsorted
    List.filter_sublist).filter fun l => l.offset = start
  rw [List.filter_filter, List.filter_congr fun l _ => Bool.and_self _] at hsublist
  have hperm := (List.mergeSort_perm f.locations fun a b => a.offset ≤ b.offset).filter
    fun l => l.offset = start
  exact (hsublist.eq_of_length hperm.length_eq.symm).symm

theorem mem_normalize {f : Function} {l : SourceLocation} :
    l ∈ f.normalize.locations ↔ l ∈ f.locations :=
  List.mem_mergeSort

section
variable {f : Function} {offset : Int} {l : SourceLocation}

theorem locationFor_normalize : f.normalize.locationFor offset =
    (f.normalize.locations.filter fun l => l.offset ≤ offset).getLast? := by
  rw [locationFor, takeWhile_eq_filter offset f.normalize_sorted]

theorem locationFor_eq_none_iff :
    f.normalize.locationFor offset = none ↔ ∀ m ∈ f.locations, offset < m.offset := by
  rw [locationFor_normalize, List.getLast?_eq_none_iff, List.filter_eq_nil_iff]
  simp only [mem_normalize, decide_eq_true_eq, Int.not_le]

theorem le_of_locationFor (h : f.normalize.locationFor offset = some l) : l.offset ≤ offset := by
  rw [locationFor_normalize] at h
  exact of_decide_eq_true (List.mem_filter.1 (List.mem_of_getLast? h)).2

/-- No entry that starts at or before the offset starts behind the one that is found. -/
theorem le_locationFor (h : f.normalize.locationFor offset = some l) {m : SourceLocation}
    (hm : m ∈ f.locations) (hle : m.offset ≤ offset) : m.offset ≤ l.offset := by
  rw [locationFor_normalize] at h
  obtain ⟨front, hfront⟩ := List.getLast?_eq_some_iff.1 h
  have hsorted := f.normalize_sorted.filter fun l => l.offset ≤ offset
  have hmem : m ∈ f.normalize.locations.filter fun l => l.offset ≤ offset :=
    List.mem_filter.2 ⟨mem_normalize.2 hm, decide_eq_true hle⟩
  rw [hfront] at hsorted hmem
  rcases List.mem_append.1 hmem with hmem | hmem
  · exact (List.pairwise_append.1 hsorted).2.2 m hmem l List.mem_cons_self
  · exact Int.le_of_eq (congrArg SourceLocation.offset (List.mem_singleton.1 hmem))

/-- Among the entries that start together with the one that is found, it is given last. -/
theorem getLast?_filter_of_locationFor (h : f.normalize.locationFor offset = some l) :
    (f.locations.filter fun m => m.offset = l.offset).getLast? = some l := by
  have hle := le_of_locationFor h
  have hwithin : (f.normalize.locations.filter fun m => m.offset = l.offset) =
      (f.normalize.locations.filter fun m => m.offset ≤ offset).filter fun m =>
        m.offset = l.offset := by
    rw [List.filter_filter]
    refine List.filter_congr fun m _ => ?_
    by_cases hm : m.offset = l.offset
    · simp [hm, hle]
    · simp [hm]
  rw [locationFor_normalize] at h
  obtain ⟨front, hfront⟩ := List.getLast?_eq_some_iff.1 h
  rw [← filter_normalize, hwithin, hfront, List.filter_append, List.filter_cons,
    if_pos (decide_eq_true rfl), List.filter_nil, List.getLast?_concat]

theorem governs_of_locationFor (h : f.normalize.locationFor offset = some l) :
    l.Governs f.locations offset := by
  obtain ⟨before, hbefore⟩ := List.getLast?_eq_some_iff.1 (getLast?_filter_of_locationFor h)
  obtain ⟨front, rest, htable, -, hrest⟩ := List.filter_eq_append_iff.1 hbefore
  obtain ⟨between, back, rfl, -, -, hback⟩ := List.filter_eq_cons_iff.1 hrest
  rw [← List.append_assoc] at htable
  refine ⟨le_of_locationFor h, front ++ between, back, htable, fun m hm hle => ?_,
    fun m hm hle => ?_⟩
  · exact le_locationFor h (htable ▸ List.mem_append_left _ hm) hle
  · have hmax := le_locationFor h
      (htable ▸ List.mem_append_right _ (List.mem_cons_of_mem _ hm)) hle
    have hne : ¬ decide (m.offset = l.offset) = true := List.filter_eq_nil_iff.1 hback m hm
    rw [decide_eq_true_eq] at hne
    omega

theorem locationFor_eq_some_iff :
    f.normalize.locationFor offset = some l ↔ l.Governs f.locations offset := by
  refine ⟨governs_of_locationFor, fun h => ?_⟩
  cases hfound : f.normalize.locationFor offset with
  | none =>
    obtain ⟨hle, front, back, htable, -⟩ := h
    have hlt := locationFor_eq_none_iff.1 hfound l
      (htable ▸ List.mem_append_right _ List.mem_cons_self)
    omega
  | some m => rw [(governs_of_locationFor hfound).unique h]

end
end Function

/-! ### Searching by halving -/

/-- The first place from `low` to `high` where a test holds, if it goes on to hold from there. -/
def firstBetween (test : Nat → Bool) (low high : Nat) : Nat :=
  if low < high then
    if test ((low + high) / 2) then firstBetween test low ((low + high) / 2)
    else firstBetween test ((low + high) / 2 + 1) high
  else low
termination_by high - low

theorem firstBetween_spec {test : Nat → Bool} {low high : Nat} (hle : low ≤ high)
    (hmono : ∀ i j, i ≤ j → j < high → test i = true → test j = true) :
    firstBetween test low high ≤ high ∧
      (∀ i, low ≤ i → i < firstBetween test low high → test i = false) ∧
      ∀ i, firstBetween test low high ≤ i → i < high → test i = true := by
  fun_induction firstBetween test low high with
  | case1 low high hlt hmiddle ih =>
    obtain ⟨hend, hbefore, hbehind⟩ := ih (by omega) fun i j hij hj => hmono i j hij (by omega)
    refine ⟨by omega, hbefore, fun i hi hhigh => ?_⟩
    by_cases hin : i < (low + high) / 2
    · exact hbehind i hi hin
    · exact hmono _ i (Nat.le_of_not_lt hin) hhigh hmiddle
  | case2 low high hlt hmiddle ih =>
    obtain ⟨hend, hbefore, hbehind⟩ := ih (by omega) hmono
    refine ⟨hend, fun i hlow hi => ?_, hbehind⟩
    by_cases hin : i ≤ (low + high) / 2
    · rw [← Bool.not_eq_true]
      exact fun htest => hmiddle (hmono i _ hin (by omega) htest)
    · exact hbefore i (by omega) hi
  | case3 low high hge =>
    exact ⟨hle, fun i hlow hi => by omega, fun i hi hhigh => by omega⟩

/-- Looks for the first entry behind an offset, and answers with the one before it. -/
def Function.locationByHalving (f : Function) (offset : Int) : Option SourceLocation :=
  let place := firstBetween (fun i => f.locations[i]?.any fun l => offset < l.offset) 0
    f.locations.length
  if place = 0 then none else f.locations[place - 1]?

namespace SourceLocation

variable {table : List SourceLocation} {offset : Int}

/-- In a sorted table, entries behind an offset are followed by such entries only. -/
theorem behind_mono (h : table.Pairwise fun a b => a.offset ≤ b.offset) (i j : Nat) (hij : i ≤ j)
    (hj : j < table.length) (hi : (table[i]?.any fun l => offset < l.offset) = true) :
    (table[j]?.any fun l => offset < l.offset) = true := by
  rw [List.getElem?_eq_getElem (Nat.lt_of_le_of_lt hij hj), Option.any_some,
    decide_eq_true_eq] at hi
  rw [List.getElem?_eq_getElem hj, Option.any_some, decide_eq_true_eq]
  rcases Nat.eq_or_lt_of_le hij with rfl | hlt
  · exact hi
  · exact Int.lt_of_lt_of_le hi (List.pairwise_iff_getElem.1 h i j _ hj hlt)

theorem takeWhile_eq_take {place : Nat}
    (hbefore : ∀ i < place, (table[i]?.any fun l => offset < l.offset) = false)
    (hbehind : place < table.length → (table[place]?.any fun l => offset < l.offset) = true) :
    (table.takeWhile fun l => l.offset ≤ offset) = table.take place := by
  have hfront : ∀ l ∈ table.take place, decide (l.offset ≤ offset) = true := by
    intro l hl
    obtain ⟨i, hi, rfl⟩ := List.mem_take_iff_getElem.1 hl
    have hnot := hbefore i (by omega)
    rw [List.getElem?_eq_getElem (by omega), Option.any_some, decide_eq_false_iff_not] at hnot
    exact decide_eq_true (Int.not_lt.1 hnot)
  conv => lhs; rw [← List.take_append_drop place table]
  rw [List.takeWhile_append_of_pos hfront]
  by_cases hin : place < table.length
  · have hlt := hbehind hin
    rw [List.getElem?_eq_getElem hin, Option.any_some, decide_eq_true_eq] at hlt
    rw [List.drop_eq_getElem_cons hin, List.takeWhile_cons_of_neg, List.append_nil]
    rw [decide_eq_true_eq]
    exact Int.not_le.2 hlt
  · rw [List.drop_eq_nil_of_le (Nat.le_of_not_lt hin), List.takeWhile_nil, List.append_nil]

end SourceLocation

theorem Function.locationByHalving_eq {f : Function} (offset : Int)
    (h : f.locations.Pairwise fun a b => a.offset ≤ b.offset) :
    f.locationByHalving offset = f.locationFor offset := by
  obtain ⟨hend, hbefore, hbehind⟩ :=
    firstBetween_spec (Nat.zero_le f.locations.length) (@SourceLocation.behind_mono _ offset h)
  unfold locationByHalving
  dsimp only
  generalize firstBetween _ 0 f.locations.length = place at hend hbefore hbehind ⊢
  rw [locationFor, SourceLocation.takeWhile_eq_take (fun i => hbefore i (Nat.zero_le i))
    (hbehind place (Nat.le_refl _)), List.getLast?_take]
  split
  · rfl
  · rw [List.getElem?_eq_getElem (by omega), Option.some_or]

/-! ### Compiled tables -/

namespace Fragment

/-- Marks at one offset are one location. -/
theorem locationsFrom_increasing (offset : Nat) (items : List Item) :
    (locationsFrom offset items).Pairwise fun a b => a.offset < b.offset := by
  fun_induction locationsFrom offset items with
  | case1 => exact .nil
  | case2 offset i rest ih | case3 offset p q rest ih => exact ih
  | case4 offset p rest hrest ih =>
    refine .cons (fun l hl => ?_) ih
    cases rest with
    | nil => cases hl
    | cons item rest =>
      cases item with
      | mark q => exact absurd rfl (hrest q rest)
      | instr i =>
        have hle := (locationsFrom_sorted (offset + i.size) rest).2 l hl
        have hpos := i.size_pos
        show (offset : Int) < l.offset
        omega

/-- A location is the start of an instruction, if one follows the last mark. -/
theorem exists_placed_of_location (offset : Nat) (items : List Item) (last : Instruction) :
    ∀ l ∈ locationsFrom offset items, ∃ p ∈ Instruction.placeFrom offset
      (⟨items, false⟩ ++ instr last : Fragment).instructions, l.offset = p.offset := by
  fun_induction locationsFrom offset items with
  | case1 => exact List.forall_mem_nil _
  | case2 offset i rest ih =>
    intro l hl
    obtain ⟨p, hp, heq⟩ := ih l hl
    exact ⟨p, List.mem_cons_of_mem _ hp, heq⟩
  | case3 offset p q rest ih => exact ih
  | case4 offset p rest hrest ih =>
    refine List.forall_mem_cons.2 ⟨?_, ih⟩
    cases rest with
    | nil => exact ⟨⟨offset, last⟩, List.mem_cons_self, rfl⟩
    | cons item rest =>
      cases item with
      | mark q => exact absurd rfl (hrest q rest)
      | instr i => exact ⟨⟨offset, i⟩, List.mem_cons_self, rfl⟩

theorem head?_locationsFrom (offset : Nat) (p : Position) (items : List Item) :
    ((locationsFrom offset (.mark p :: items)).head?.map SourceLocation.offset) =
      some (offset : Int) := by
  induction items generalizing p with
  | nil => rfl
  | cons item items ih =>
    cases item with
    | mark q => exact ih q
    | instr i => rfl

end Fragment

/-- The table of a function follows its code: the offsets increase from 0, and each is the start of
an instruction. -/
structure Function.Charted (g : Function) : Prop where
  increasing : g.locations.Pairwise fun a b => a.offset < b.offset
  starts : ∃ is, Instruction.decode g.bytes = .ok is ∧
    ∀ l ∈ g.locations, ∃ p ∈ is, l.offset = p.offset
  first : g.locations.head?.map SourceLocation.offset = some 0

/-- The functions of an image have their tables. Only the code of a constant has none. -/
def Image.Charted (e : Expr) (img : Image) : Prop :=
  match e with
  | .const .. => ∃ g, img.functions = [g] ∧ g.locations = []
  | _ => ∀ g ∈ img.functions, g.normalize = g ∧ g.Charted

theorem Function.Charted.normalize_eq {g : Function} (h : g.Charted) : g.normalize = g := by
  have hsorted : g.locations.mergeSort (fun a b => a.offset ≤ b.offset) = g.locations :=
    List.mergeSort_of_pairwise (h.increasing.imp fun hlt => decide_eq_true (Int.le_of_lt hlt))
  rw [normalize, hsorted]

namespace Fragment

theorem locations_of_unmarked {f : Fragment} (h : f.marks = []) : f.locations = [] := by
  have hcount := (locationsFrom_spec 0 f.items f.landing).1
  rw [show (⟨f.items, f.landing⟩ : Fragment).marks = [] from h] at hcount
  exact List.eq_nil_of_length_eq_zero (Nat.le_zero.1 hcount)

/-- The piece starts with a mark. -/
def Starts (f : Fragment) : Prop := ∃ pos rest, f.items = .mark pos :: rest

theorem starts_marked (pos : Position) (f : Fragment) : (f.marked pos).Starts := ⟨pos, f.items, rfl⟩

theorem Starts.append {f : Fragment} (h : f.Starts) (g : Fragment) : (f ++ g).Starts := by
  obtain ⟨pos, rest, hf⟩ := h
  exact ⟨pos, rest ++ g.items, congrArg (· ++ g.items) hf⟩

theorem Starts.returning {f : Fragment} (h : f.Starts) : f.returning.Starts := by
  unfold Fragment.returning
  split
  · exact h
  · exact h.append _

theorem Ends.returning {f : Fragment} (h : f.Ends) : f.returning.Ends := by
  unfold Fragment.returning
  split
  · exact h
  · exact (ends_op _ _).append f

theorem Starts.charted {f : Fragment} {g : Function} {earlier : List Function} (h : f.Starts)
    (hends : f.Ends) (hbuilt : g.Built earlier f.returning.instructions)
    (hlocations : g.locations = f.returning.locations) : g.Charted := by
  refine ⟨?_, ⟨Instruction.placeFrom 0 f.returning.instructions, ?_, ?_⟩, ?_⟩
  · rw [hlocations]
    exact locationsFrom_increasing 0 f.returning.items
  · rw [hbuilt.code]
    exact Instruction.decode_encode fun i hi => (hbuilt.sound i hi).fits
  · obtain ⟨front, last, hlast⟩ := hends.returning
    have hfront : g.locations = locationsFrom 0 front := by
      rw [hlocations, locations, hlast, locationsFrom_split, locationsFrom, List.append_nil]
    have hinstrs : f.returning.instructions =
        (⟨front, false⟩ ++ instr last : Fragment).instructions := by
      rw [instructions, hlast]
      rfl
    rw [hfront, hinstrs]
    exact exists_placed_of_location 0 front last
  · obtain ⟨pos, rest, hrest⟩ := h.returning
    rw [hlocations, locations, hrest]
    exact head?_locationsFrom 0 pos rest

end Fragment

theorem Emits.starts {ctx : Context} {use : Use} {base depth : Nat} {e : Expr} {d d' : Draft}
    {f : Fragment} (h : Emits ctx use base depth (.expr e) d f d') (huse : use ≠ .test) :
    f.Starts := by
  cases h with
  | marked => exact Fragment.starts_marked _ _
  | negation => exact absurd rfl huse

/-- Functions inside a form have their tables. -/
theorem EmitsForm.charted {ctx : Context} {e : Expr} {f : Fragment} {d : Draft}
    (h : EmitsForm ctx e f d) : ∀ g ∈ d.functions, g.Charted := by
  refine h.forall_finished fun hslots hb => ?_
  exact (Fragment.starts_marked _ _).charted ((hb.ends rfl).marked _) (hb.built hslots) rfl

/-- The code of a constant is a load and has no marks. -/
theorem EmitsForm.const_unmarked {ctx : Context} {pos : Position} {name : Bytes} {value : Expr}
    {f : Fragment} {d : Draft} (h : EmitsForm ctx (.const pos name value) f d) :
    f.marks = [] ∧ d.functions = [] := by
  cases h with
  | expression hname _ => cases hname
  | const _ hi h =>
    cases h with
    | literal hy =>
      refine ⟨?_, ?_⟩
      · rw [Fragment.marks_append, hy.load_spec.1]
        rfl
      · rcases yields_load.1 hy with ⟨o, -, -, rfl⟩ | ⟨-, i, hv, -⟩
        · exact hi.interned.2.1
        · exact hv.interned.2.1.trans hi.interned.2.1

theorem Compilation.Compiles.charted {options : CompileOptions} {k : Nat} {ctx : Context} {e : Expr}
    {img : Image} (h : Compiles options k ctx e img) : img.Charted e := by
  obtain ⟨f, d, hf, rfl⟩ := h.emits
  have hinner := hf.charted
  have hbuilt := hf.built h.frame
  have all (hstarts : f.Starts) (hends : f.Ends) :
      ∀ g ∈ d.functions ++ [entry ctx f d], g.normalize = g ∧ g.Charted := by
    have hall : ∀ g ∈ d.functions ++ [entry ctx f d], g.Charted :=
      List.forall_mem_append.2 ⟨hinner,
        List.forall_mem_singleton.2 (hstarts.charted hends hbuilt rfl)⟩
    exact fun g hg => ⟨(hall g hg).normalize_eq, hall g hg⟩
  cases hf with
  | expression hname h =>
    cases e with
    | const => cases hname
    | _ => exact all (h.starts (by decide)) (h.ends rfl)
  | define _ _ h => exact all ((h.starts (by decide)).append _) ((Fragment.ends_op _ _).append _)
  | defineFunction _ h =>
    exact all ((Fragment.starts_marked _ _).append _) ((Fragment.ends_op _ _).append _)
  | const hfold hi h =>
    obtain ⟨hmarks, hfunctions⟩ := (EmitsForm.const hfold hi h).const_unmarked
    refine ⟨_, by rw [hfunctions]; rfl, Fragment.locations_of_unmarked ?_⟩
    rw [Fragment.marks_returning, hmarks]

/-- In a table that is given in any order, the entry that governs an offset is found, and nothing
only if there is none; halving the table finds the same. Compiled functions have tables that are in
order and follow their instructions. -/
theorem Function.locationFor_governs :
    (∀ (f : Function) (offset : Int),
      (∀ l, f.normalize.locationFor offset = some l ↔ l.Governs f.locations offset) ∧
      (f.normalize.locationFor offset = none ↔ ∀ m ∈ f.locations, offset < m.offset) ∧
      f.normalize.locationByHalving offset = f.normalize.locationFor offset) ∧
    ∀ (options : CompileOptions) (env : Environment) (forms : List Expr) (c : Compilation),
      Compilation.compile options env forms = .ok c → c.images.length = forms.length ∧
        ∀ (k : Nat) (e : Expr) (img : Image), forms[k]? = some e → c.images[k]? = some img →
          img.Charted e := by
  refine ⟨fun f offset => ⟨fun l => locationFor_eq_some_iff, locationFor_eq_none_iff,
    locationByHalving_eq offset f.normalize_sorted⟩, fun options env forms c hc => ?_⟩
  obtain ⟨hlength, himages⟩ := Compilation.compiles_compile hc
  refine ⟨hlength, fun k e img he himg => ?_⟩
  obtain ⟨e', ctx, he', hcompiles⟩ := himages k img himg
  cases he.symm.trans he'
  exact hcompiles.charted

/-- A table with two entries at one offset, not in order. -/
def Function.scrambled : Function :=
  { locations := [⟨6, 1, 1⟩, ⟨0, 1, 2⟩, ⟨6, 2, 3⟩, ⟨3, 4, 4⟩] }

/-- A constant, a function with a closure, and a call. -/
def Program.tabled : Bytes :=
  Text.lit "(const c 1) (define f (lambda (x) (if x (f c) (lambda () x)))) (f 2)"

theorem Function.scrambled_governs :
    Function.scrambled.normalize.locationFor 7 = some ⟨6, 2, 3⟩ ∧
    (⟨6, 2, 3⟩ : SourceLocation).Governs Function.scrambled.locations 7 ∧
    Function.scrambled.normalize.locationFor (-1) = none ∧
    ∃ c, Compilation.compile {} {} (Program.read {} Program.tabled).forms = .ok c ∧
      c.images.map (fun img => img.functions.map fun g =>
        g.locations.map SourceLocation.offset) = [[[]], [[0], [0, 3, 6], [0]], [[0]]] ∧
      ∀ (k : Nat) (e : Expr) (img : Image), (Program.read {} Program.tabled).forms[k]? = some e →
        c.images[k]? = some img → img.Charted e := by
  obtain ⟨hlookup, hcompiled⟩ := locationFor_governs
  have hgoverns : (⟨6, 2, 3⟩ : SourceLocation).Governs Function.scrambled.locations 7 :=
    ⟨by decide, [⟨6, 1, 1⟩, ⟨0, 1, 2⟩], [⟨3, 4, 4⟩], rfl, by decide, by decide⟩
  have htables : (Compilation.compile {} {} (Program.read {} Program.tabled).forms).toOption.map
      (fun c => c.images.map fun img => img.functions.map fun g =>
        g.locations.map SourceLocation.offset) = some [[[]], [[0], [0, 3, 6], [0]], [[0]]] := by
    decide +kernel
  refine ⟨((hlookup _ _).1 _).2 hgoverns, hgoverns, (hlookup _ _).2.1.2 (by decide), ?_⟩
  cases h : Compilation.compile {} {} (Program.read {} Program.tabled).forms with
  | error r =>
    rw [h] at htables
    cases htables
  | ok c =>
    rw [h] at htables
    exact ⟨c, rfl, Option.some.inj htables, (hcompiled {} {} _ c h).2⟩

end StackLisp
