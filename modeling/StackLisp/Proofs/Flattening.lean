import StackLisp.Image

/-! The order in which the functions of an image are listed: exactly those that the entry reaches,
each once, and each behind the functions of its pool. -/
namespace StackLisp.Image

variable {img : Image}

/-- The function at `j` is the one at `i`, or is reached from it through constant pools. -/
inductive Reaches (img : Image) : Nat → Nat → Prop where
  | refl {i : Nat} : Reaches img i i
  | step {i j k : Nat} {f : Function} : img.get? i = some f → j ∈ f.references →
      Reaches img j k → Reaches img i k

/-- A list of functions in which none stands twice, and each stands behind all it refers to. -/
inductive Topological (img : Image) : List Nat → Prop where
  | nil : Topological img []
  | snoc {out : List Nat} {i : Nat} {f : Function} : Topological img out → i ∉ out →
      img.get? i = some f → (∀ j ∈ f.references, j ∈ out) → Topological img (out ++ [i])

/-- The functions form a graph without cycles: pools name functions of the image, and no function
is reached from its own pool. -/
structure Acyclic (img : Image) : Prop where
  present : ∀ i f, img.get? i = some f → ∀ j ∈ f.references, j < img.functions.length
  apart : ∀ i f, img.get? i = some f → ∀ j ∈ f.references, ¬ img.Reaches j i

section Rank

variable {rank : Nat → Nat}
  (hrank : ∀ i f, img.get? i = some f → ∀ j ∈ f.references, rank j < rank i)
include hrank

theorem Reaches.rank_le {i k : Nat} (h : img.Reaches i k) : rank k ≤ rank i := by
  induction h with
  | refl => exact Nat.le_refl _
  | step hf hj _ ih =>
    have hlt := hrank _ _ hf _ hj
    omega

/-- Functions that can be ranked, each above those of its pool, form no cycle. -/
theorem acyclic_of_rank
    (hpresent : ∀ i f, img.get? i = some f → ∀ j ∈ f.references, j < img.functions.length) :
    img.Acyclic := by
  refine ⟨hpresent, fun i f hf j hj hreach => ?_⟩
  have hle := hreach.rank_le hrank
  have hlt := hrank i f hf j hj
  omega

end Rank

theorem Reaches.le (hordered : img.Ordered) {i k : Nat} (h : img.Reaches i k) : k ≤ i :=
  h.rank_le hordered

theorem Ordered.acyclic (hordered : img.Ordered) : img.Acyclic := by
  refine acyclic_of_rank hordered fun i f hf j hj => ?_
  have hi := (List.getElem?_eq_some_iff.1 hf).1
  exact Nat.lt_trans (hordered i f hf j hj) hi

namespace Topological

theorem nodup {out : List Nat} (h : img.Topological out) : out.Nodup := by
  induction h with
  | nil => exact List.nodup_nil
  | snoc _ hi _ _ ih =>
    rw [List.nodup_append]
    refine ⟨ih, by simp, fun a ha b hb => ?_⟩
    obtain rfl := List.mem_singleton.1 hb
    exact fun heq => hi (heq ▸ ha)

theorem get {out : List Nat} (h : img.Topological out) {i : Nat} (hi : i ∈ out) :
    ∃ f, img.get? i = some f := by
  induction h with
  | nil => simp at hi
  | snoc _ _ hf _ ih =>
    rcases List.mem_append.1 hi with hi | hi
    · exact ih hi
    · obtain rfl := List.mem_singleton.1 hi
      exact ⟨_, hf⟩

/-- What a function refers to stands before it. -/
theorem before {out : List Nat} (h : img.Topological out) {p i j : Nat} {f : Function}
    (hp : out[p]? = some i) (hf : img.get? i = some f) (hj : j ∈ f.references) :
    ∃ q, q < p ∧ out[q]? = some j := by
  induction h with
  | nil => simp at hp
  | @snoc out k g _ _ hg hrefs ih =>
    by_cases hlt : p < out.length
    · rw [List.getElem?_append_left hlt] at hp
      obtain ⟨q, hq, hjq⟩ := ih hp
      exact ⟨q, hq, by rw [List.getElem?_append_left (by omega)]; exact hjq⟩
    · rw [List.getElem?_append_right (by omega)] at hp
      have hpk : p = out.length ∧ k = i := by
        rw [List.getElem?_singleton] at hp
        split at hp
        · exact ⟨by omega, Option.some.inj hp⟩
        · cases hp
      obtain ⟨rfl, rfl⟩ := hpk
      rw [hf] at hg
      cases hg
      obtain ⟨q, hq⟩ := List.mem_iff_getElem?.1 (hrefs j hj)
      have hlen := (List.getElem?_eq_some_iff.1 hq).1
      exact ⟨q, hlen, by rw [List.getElem?_append_left hlen]; exact hq⟩

theorem closed {out : List Nat} (h : img.Topological out) {i k : Nat} (hi : i ∈ out)
    (hreach : img.Reaches i k) : k ∈ out := by
  induction hreach with
  | refl => exact hi
  | step hf hj _ ih =>
    obtain ⟨p, hp⟩ := List.mem_iff_getElem?.1 hi
    obtain ⟨q, -, hq⟩ := h.before hp hf hj
    exact ih (List.mem_of_getElem? hq)

end Topological

/-! ### A visit -/

theorem visit_of_met {i : Nat} {t : Tour} (h : i ∈ t.met) : (img.visit i t).1 = t := by
  rw [visit, if_pos (.inl h)]

theorem visit_of_unmet {i : Nat} {f : Function} (hf : img.get? i = some f) {t : Tour}
    (h : i ∉ t.met) : (img.visit i t).1 =
      (f.references.foldl (fun s j => (img.visit j s).1) (t.meet i)).leave i := by
  have hi : i < img.functions.length := (List.getElem?_eq_some_iff.1 hf).1
  have hpool : img.referencesAt i = f.references := by rw [referencesAt, hf]
  have hcase : ¬ (i ∈ t.met ∨ img.functions.length ≤ i) := fun hor => hor.elim h (by omega)
  rw [visit, if_neg hcase]
  refine congrArg (Tour.leave · i) ?_
  rw [hpool]
  exact (List.foldl_hom Subtype.val fun _ _ => rfl).symm

namespace Tour

/-- A tour lists functions that it has met, each behind those of its pool. -/
structure Orderly (img : Image) (t : Tour) : Prop where
  topological : img.Topological t.listed
  met : t.listed ⊆ t.met

/-- The functions that the tour has met and not yet left are not reached from the one at `i`. -/
def Clear (img : Image) (t : Tour) (i : Nat) : Prop :=
  ∀ m ∈ t.met, img.Reaches i m → m ∈ t.listed

end Tour

/-- What visiting the functions `js` one after the other makes of a tour. -/
structure Visited (img : Image) (js : List Nat) (t t' : Tour) : Prop where
  topological : img.Topological t'.listed
  grows : t.listed <+: t'.listed
  mem : ∀ j ∈ js, j ∈ t'.listed
  reached : ∀ m ∈ t'.listed, m ∈ t.listed ∨ ∃ j ∈ js, img.Reaches j m
  met : ∀ m, m ∈ t'.met ↔ m ∈ t.met ∨ m ∈ t'.listed

namespace Visited

variable {js : List Nat} {t t' : Tour}

theorem orderly (h : img.Visited js t t') : t'.Orderly img :=
  ⟨h.topological, fun m hm => (h.met m).2 (.inr hm)⟩

theorem clear (h : img.Visited js t t') {i : Nat} (hclear : t.Clear img i) : t'.Clear img i := by
  intro m hm hreach
  rcases (h.met m).1 hm with hm | hm
  · exact h.grows.subset (hclear m hm hreach)
  · exact hm

theorem nil (ht : t.Orderly img) : img.Visited [] t t :=
  ⟨ht.topological, List.prefix_rfl, nofun, fun _ hm => .inl hm,
    fun _ => ⟨.inl, fun hm => hm.elim id fun hm => ht.met hm⟩⟩

theorem cons {j : Nat} {t'' : Tour} (h : img.Visited [j] t t') (h' : img.Visited js t' t'') :
    img.Visited (j :: js) t t'' := by
  refine ⟨h'.topological, h.grows.trans h'.grows, fun x hx => ?_, fun m hm => ?_, fun m => ?_⟩
  · rcases List.mem_cons.1 hx with rfl | hx
    · exact h'.grows.subset (h.mem x List.mem_cons_self)
    · exact h'.mem x hx
  · rcases h'.reached m hm with hm | ⟨x, hx, hm⟩
    · rcases h.reached m hm with hm | ⟨x, hx, hm⟩
      · exact .inl hm
      · exact .inr ⟨x, List.mem_cons.2 (.inl (List.mem_singleton.1 hx)), hm⟩
    · exact .inr ⟨x, List.mem_cons_of_mem _ hx, hm⟩
  · rw [h'.met, h.met, or_assoc]
    exact or_congr_right ⟨fun hm => hm.elim (fun hm => h'.grows.subset hm) id, .inr⟩

/-- A function is left behind those of its pool, none of which reaches it. -/
theorem leave {i : Nat} {f : Function} (h : img.Visited f.references (t.meet i) t')
    (hf : img.get? i = some f) (hnew : i ∉ t.met) (ht : t.Orderly img)
    (hapart : ∀ j ∈ f.references, ¬ img.Reaches j i) : img.Visited [i] t (t'.leave i) := by
  have hlast : i ∉ t'.listed := by
    intro hin
    rcases h.reached i hin with hin | ⟨j, hj, hreach⟩
    · exact hnew (ht.met hin)
    · exact hapart j hj hreach
  have hlisted : ∀ m, m ∈ (t'.leave i).listed ↔ m ∈ t'.listed ∨ m = i := by simp [Tour.leave]
  refine ⟨.snoc h.topological hlast hf h.mem, h.grows.trans (List.prefix_append _ _), ?_,
    fun m hm => ?_, fun m => ?_⟩
  · intro j hj
    exact (hlisted j).2 (.inr (List.mem_singleton.1 hj))
  · rcases (hlisted m).1 hm with hm | rfl
    · rcases h.reached m hm with hm | ⟨j, hj, hreach⟩
      · exact .inl hm
      · exact .inr ⟨i, List.mem_singleton_self i, .step hf hj hreach⟩
    · exact .inr ⟨m, List.mem_singleton_self m, .refl⟩
  · have hmet : m ∈ (t.meet i).met ↔ m = i ∨ m ∈ t.met := List.mem_cons
    have hleft : m ∈ (t'.leave i).met ↔ m ∈ t'.met := .rfl
    rw [hleft, h.met, hmet, hlisted, or_comm (a := m = i), or_assoc, or_comm (a := m = i)]

end Visited

/-- Visits that start where `start` has been met, from a tour that is clear for all of them. -/
theorem visited_foldl {start : List Nat} {js : List Nat}
    (h : ∀ j ∈ js, ∀ t : Tour, start ⊆ t.met → t.Orderly img → t.Clear img j →
      img.Visited [j] t (img.visit j t).1)
    {t : Tour} (hstart : start ⊆ t.met) (ht : t.Orderly img) (hclear : ∀ j ∈ js, t.Clear img j) :
    img.Visited js t (js.foldl (fun s j => (img.visit j s).1) t) := by
  induction js generalizing t with
  | nil => exact .nil ht
  | cons j js ih =>
    have hfirst := h j List.mem_cons_self t hstart ht (hclear j List.mem_cons_self)
    refine hfirst.cons (ih (fun x hx => h x (List.mem_cons_of_mem _ hx))
      (List.Subset.trans hstart (img.visit j t).2) hfirst.orderly fun x hx => ?_)
    exact hfirst.clear (hclear x (List.mem_cons_of_mem _ hx))

/-- A visit lists a function behind all that it reaches. The functions that are met and not listed
are those from which the tour has come here: without cycles, they are not reached from here, and so
whatever is met in a pool has been listed. -/
theorem Acyclic.visited_visit (hacyclic : img.Acyclic) {i : Nat} (hi : i < img.functions.length)
    {t : Tour} (ht : t.Orderly img) (hclear : t.Clear img i) :
    img.Visited [i] t (img.visit i t).1 := by
  induction i, t using visit.induct img with
  | case1 i t hcase =>
    have hmet : i ∈ t.met := hcase.resolve_right (by omega)
    have hlisted : i ∈ t.listed := hclear i hmet .refl
    rw [visit_of_met hmet]
    exact { Visited.nil ht with
      mem := by simpa using hlisted
      reached := fun m hm => .inl hm }
  | case2 i t hcase ih =>
    have hnew : i ∉ t.met := fun hmet => hcase (.inl hmet)
    obtain ⟨f, hf⟩ : ∃ f, img.get? i = some f := ⟨_, List.getElem?_eq_getElem hi⟩
    have hentered : (t.meet i).Orderly img := ⟨ht.topological, fun _ hm => .tail _ (ht.met hm)⟩
    have hpoolClear : ∀ j ∈ f.references, (t.meet i).Clear img j := by
      intro j hj m hm hreach
      rcases List.mem_cons.1 hm with rfl | hm
      · exact absurd hreach (hacyclic.apart m f hf j hj)
      · exact hclear m hm (.step hf hj hreach)
    have hpool := visited_foldl
      (fun j hj s hs => ih ⟨s, hs⟩ j (hacyclic.present i f hf j hj)) (List.Subset.refl _)
      hentered hpoolClear
    rw [visit_of_unmet hf hnew]
    exact hpool.leave hf hnew ht fun j hj => hacyclic.apart i f hf j hj

/-- The place of the entry. -/
def entry (img : Image) : Nat := img.functions.length - 1

theorem flatten_eq_visit (hne : img.functions ≠ []) :
    img.flatten = (img.visit img.entry {}).1.listed := by
  have hpos := List.length_pos_iff.2 hne
  unfold flatten entry
  split
  · omega
  · next n hn =>
    rw [hn]
    rfl

theorem entry_lt (hne : img.functions ≠ []) : img.entry < img.functions.length := by
  have hpos := List.length_pos_iff.2 hne
  unfold entry
  omega

/-- The entry is listed last. -/
theorem flatten_eq_append (hne : img.functions ≠ []) :
    ∃ front, img.flatten = front ++ [img.entry] := by
  have hf : img.get? img.entry = some _ := List.getElem?_eq_getElem (entry_lt hne)
  rw [flatten_eq_visit hne]
  rw [visit_of_unmet hf List.not_mem_nil]
  exact ⟨_, rfl⟩

section
variable (hacyclic : img.Acyclic) (hne : img.functions ≠ [])
include hacyclic hne

theorem visited_flatten :
    img.Visited [img.entry] {} (img.visit img.entry {}).1 :=
  hacyclic.visited_visit (entry_lt hne) ⟨.nil, List.Subset.refl _⟩ nofun

theorem topological_flatten : img.Topological img.flatten :=
  flatten_eq_visit hne ▸ (visited_flatten hacyclic hne).topological

theorem mem_flatten {i : Nat} : i ∈ img.flatten ↔ img.Reaches img.entry i := by
  have hvisited := visited_flatten hacyclic hne
  rw [flatten_eq_visit hne]
  constructor
  · intro hi
    rcases hvisited.reached i hi with hi | ⟨j, hj, hreach⟩
    · cases hi
    · exact List.mem_singleton.1 hj ▸ hreach
  · exact hvisited.topological.closed (hvisited.mem _ (List.mem_singleton_self _))

end

/-! ### The reachable functions alone -/

theorem getElem?_filterMap_get? {out : List Nat} (h : ∀ i ∈ out, ∃ f, img.get? i = some f)
    (p : Nat) : (out.filterMap img.get?)[p]? = out[p]?.bind img.get? := by
  induction out generalizing p with
  | nil => rfl
  | cons i out ih =>
    obtain ⟨f, hf⟩ := h i List.mem_cons_self
    rw [List.filterMap_cons_some hf]
    cases p with
    | zero => exact hf.symm
    | succ p => exact ih (fun j hj => h j (List.mem_cons_of_mem _ hj)) p

/-- A function with its references as they are after the functions have been put in an order. -/
def moved (order : List Nat) (f : Function) : Function :=
  { f with constants := f.constants.map (relabel order) }

theorem get?_canonical (hacyclic : img.Acyclic) (hne : img.functions ≠ []) (p : Nat) :
    img.canonical.get? p = (img.flatten[p]?.bind img.get?).map (moved img.flatten) := by
  have hget : ∀ i ∈ img.flatten, ∃ f, img.get? i = some f :=
    fun i hi => (topological_flatten hacyclic hne).get hi
  unfold canonical get? flattened
  rw [List.getElem?_map, getElem?_filterMap_get? hget]
  rfl

theorem length_canonical (hacyclic : img.Acyclic) (hne : img.functions ≠ []) :
    img.canonical.functions.length = img.flatten.length := by
  have hget : ∀ i ∈ img.flatten, ∃ f, img.get? i = some f :=
    fun i hi => (topological_flatten hacyclic hne).get hi
  unfold canonical flattened
  rw [List.length_map]
  generalize img.flatten = out at hget
  induction out with
  | nil => rfl
  | cons i out ih =>
    obtain ⟨f, hf⟩ := hget i List.mem_cons_self
    rw [List.filterMap_cons_some hf, List.length_cons, List.length_cons,
      ih fun j hj => hget j (List.mem_cons_of_mem _ hj)]

/-- Every function of the canonical form is one that the entry reaches. -/
theorem mem_canonical {g : Function} (hg : g ∈ img.canonical.functions) :
    ∃ i f, i ∈ img.flatten ∧ img.get? i = some f ∧ g = moved img.flatten f := by
  obtain ⟨f, hf, rfl⟩ := List.mem_map.1 hg
  obtain ⟨i, hi, hget⟩ := List.mem_filterMap.1 hf
  exact ⟨i, f, hi, hget, rfl⟩

end StackLisp.Image
