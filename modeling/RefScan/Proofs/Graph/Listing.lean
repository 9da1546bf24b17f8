import Mathlib.Data.Finset.Card
import RefScan.Proofs.Graph

/-!
# Listings of a graph

What the queries of a graph list is a set of types or references of its content, each once and in
order (`Lists`). The numbers do not show: a listing goes through nodes and links, but which of them
came first is lost in the sorting.
-/

namespace RefScan.Graph

/-- `l` has the elements of `s`, each once and in order. -/
structure Lists (before : α → α → Prop) (s : Set α) (l : List α) : Prop where
  ordered : l.Pairwise before
  mem : ∀ {x}, x ∈ l ↔ x ∈ s

section
variable {before : α → α → Prop} (hasymm : ∀ {a b}, before a b → ¬ before b a)
include hasymm

theorem Lists.nodup (h : Lists before s l) : l.Nodup := by
  apply h.ordered.imp
  intro a b hab heq
  subst b
  exact hasymm hab hab

theorem Lists.unique (h : Lists before s l) (h' : Lists before s l') : l = l' := by
  refine List.Perm.eq_of_pairwise (fun a b _ _ hab hba => absurd hba (hasymm hab)) h.ordered
    h'.ordered ?_
  refine (List.perm_ext_iff_of_nodup (h.nodup hasymm) (h'.nodup hasymm)).mpr fun x => ?_
  rw [h.mem, h'.mem]

end

def ByName (a b : TypeName) : Prop := a.name < b.name

def ByEnds (a b : Reference) : Prop :=
  ByName a.source b.source ∨ (a.source = b.source ∧ ByName a.target b.target)

theorem ByName.asymm (h : ByName a b) : ¬ ByName b a := String.lt_asymm h

theorem not_byName_self (a : TypeName) : ¬ ByName a a := String.lt_irrefl a.name

theorem ByEnds.asymm (h : ByEnds a b) : ¬ ByEnds b a := by
  rintro (hs' | ⟨heq', ht'⟩)
  · rcases h with hs | ⟨heq, -⟩
    · exact hs.asymm hs'
    · exact not_byName_self _ (heq ▸ hs')
  · rcases h with hs | ⟨-, ht⟩
    · exact not_byName_self _ (heq' ▸ hs)
    · exact ht.asymm ht'

theorem byName_of_compare {a b : TypeName} (h : compare a b = .lt) : ByName a b :=
  lt_of_compare h

theorem byEnds_of_compare {a b : Reference} (h : compare a b = .lt) : ByEnds a b := by
  have h : (compare a.source b.source).then (compare a.target b.target) = .lt := h
  rcases Ordering.then_eq_lt.mp h with hs | ⟨hs, ht⟩
  · exact .inl (byName_of_compare hs)
  · exact .inr ⟨Std.LawfulEqOrd.eq_of_compare hs, byName_of_compare ht⟩

-- ---------------------------------------------------------------------------
-- Sorting
-- ---------------------------------------------------------------------------

theorem inOrder_ordered [Ord α] [Std.TransOrd α] [Std.LawfulEqOrd α] {l : List α} (hl : l.Nodup) :
    (inOrder l).Pairwise fun a b => compare a b = .lt := by
  have htotal (a b : α) : ((compare a b).isLE || (compare b a).isLE) = true := by
    rw [Std.OrientedOrd.eq_swap (a := b)]
    cases compare a b <;> rfl
  have hsorted := List.pairwise_mergeSort (fun _ _ _ : α => Std.TransCmp.isLE_trans) htotal l
  have hdistinct := (List.mergeSort_perm l fun a b => (compare a b).isLE).nodup_iff.mpr hl
  refine hsorted.imp₂ (fun a b hle hne => ?_) hdistinct
  rcases Ordering.isLE_iff_eq_lt_or_eq_eq.mp hle with hlt | heq
  · exact hlt
  · exact absurd (Std.LawfulEqOrd.eq_of_compare heq) hne

theorem lists_inOrder [Ord α] [Std.TransOrd α] [Std.LawfulEqOrd α] {before : α → α → Prop}
    (hbefore : ∀ {a b}, compare a b = .lt → before a b) {l : List α} (hl : l.Nodup)
    (hmem : ∀ {x}, x ∈ l ↔ x ∈ s) : Lists before s (inOrder l) :=
  ⟨(inOrder_ordered hl).imp hbefore, List.mem_mergeSort.trans hmem⟩

theorem eraseReps_of_nodup [BEq α] [LawfulBEq α] {l : List α} (hl : l.Nodup) : l.eraseReps = l := by
  have hloop (a : α) (l acc : List α) (hl : (a :: l).Nodup) :
      List.eraseRepsBy.loop (· == ·) a l acc = acc.reverse ++ a :: l := by
    induction l generalizing a acc with
    | nil => simp [List.eraseRepsBy.loop]
    | cons b l ih =>
      have hne : (a == b) = false := by
        rw [beq_eq_false_iff_ne]
        rintro rfl
        simp at hl
      rw [List.eraseRepsBy.loop, hne]
      simp [ih b (a :: acc) (List.nodup_cons.mp hl).2]
  cases l with
  | nil => rfl
  | cons a l => exact hloop a l [] hl

theorem Lists.eq_toList {ts : Std.ExtTreeSet TypeName} (h : Lists ByName s l)
    (hs : ∀ t, t ∈ s ↔ t ∈ ts) : l = ts.toList := by
  refine h.unique ByName.asymm ⟨ts.ordered_toList.imp byName_of_compare, fun {t} => ?_⟩
  rw [hs, Std.ExtTreeSet.mem_toList]

theorem nodup_toList {s : Std.ExtTreeSet TypeName} : s.toList.Nodup :=
  s.distinct_toList.imp fun hne heq => hne (by simp [heq])

-- ---------------------------------------------------------------------------
-- Queries
-- ---------------------------------------------------------------------------

variable {g : Graph}

theorem WellFormed.contains_iff (hw : g.WellFormed) (t : TypeName) :
    g.contains t = true ↔ t ∈ g.content.types := by
  rw [contains, ← Std.ExtTreeMap.mem_iff_contains, hw.mem_index]

theorem WellFormed.lists_typeNames (hw : g.WellFormed) :
    Lists ByName ↑g.content.types g.typeNames :=
  ⟨g.index.ordered_keys.imp byName_of_compare, by
    intro t
    rw [typeNames, Std.ExtTreeMap.mem_keys, hw.mem_index, Finset.mem_coe]⟩

/-- Different nodes have different types, so different links are different references. -/
theorem WellFormed.references_nodup (hw : g.WellFormed) :
    (g.links.toList.filterMap g.referenceAt?).Nodup := by
  refine hw.distinct.filterMap fun (i, j) (i', j') r h h' => ?_
  rw [Option.mem_def, referenceAt?_eq_some] at h h'
  rw [hw.number_unique h.1 h'.1, hw.number_unique h.2 h'.2]

theorem WellFormed.lists_edges (hw : g.WellFormed) :
    Lists ByEnds ↑g.content.references g.edges := by
  refine lists_inOrder byEnds_of_compare hw.references_nodup fun {r} => ?_
  rw [Finset.mem_coe, content, List.mem_toFinset]

theorem mem_targets : j ∈ g.targets i ↔ (i, j) ∈ g.links := by
  simp [targets]

theorem mem_sources : j ∈ g.sources i ↔ (j, i) ∈ g.links := by
  simp [sources]

theorem WellFormed.targets_nodup (hw : g.WellFormed) (i : Nat) : (g.targets i).Nodup := by
  refine List.Nodup.map_on ?_ (hw.distinct.filter _)
  rintro ⟨k, l⟩ hkl ⟨k', l'⟩ hkl' rfl
  simp_all

theorem WellFormed.sources_nodup (hw : g.WellFormed) (i : Nat) : (g.sources i).Nodup := by
  refine List.Nodup.map_on ?_ (hw.distinct.filter _)
  rintro ⟨k, l⟩ hkl ⟨k', l'⟩ hkl' rfl
  simp_all

theorem WellFormed.names_nodup (hw : g.WellFormed) {l : List Nat} (hl : l.Nodup) :
    (l.filterMap g.typeAt?).Nodup :=
  hl.filterMap fun _ _ _ h h' => hw.number_unique h h'

theorem WellFormed.lists_neighbors (hw : g.WellFormed) {others : Nat → List Nat}
    (hothers : ∀ i, (others i).Nodup)
    (hmem : ∀ {u}, u ∈ s ↔ ∃ i j, g.typeAt? i = some t ∧ j ∈ others i ∧ g.typeAt? j = some u) :
    Lists ByName s (g.neighbors others t) := by
  unfold neighbors
  split
  · rename_i hnone
    refine ⟨.nil, fun {u} => ?_⟩
    rw [hmem]
    constructor
    · intro hu
      cases hu
    · rintro ⟨i, j, hi, -⟩
      rw [hw.index.mpr hi] at hnone
      cases hnone
  · rename_i i hi
    have hnames := hw.names_nodup (hothers i)
    have hsorted : (inOrder ((others i).filterMap g.typeAt?)).Nodup :=
      (List.mergeSort_perm _ _).nodup_iff.mpr hnames
    rw [eraseReps_of_nodup hsorted]
    refine lists_inOrder byName_of_compare hnames fun {u} => ?_
    rw [List.mem_filterMap, hmem]
    constructor
    · rintro ⟨j, hj, hu⟩
      exact ⟨i, j, hw.index.mp hi, hj, hu⟩
    · rintro ⟨k, j, hk, hj, hu⟩
      cases hw.number_unique hk (hw.index.mp hi)
      exact ⟨j, hj, hu⟩

theorem WellFormed.lists_referencesOf (hw : g.WellFormed) (t : TypeName) :
    Lists ByName {u | g.content.Refers t u} (g.referencesOf t) := by
  refine hw.lists_neighbors hw.targets_nodup fun {u} => ?_
  simp only [Set.mem_ofPred_eq, Content.Refers, mem_references, mem_targets]
  grind

theorem WellFormed.lists_referencedBy (hw : g.WellFormed) (t : TypeName) :
    Lists ByName {u | g.content.Refers u t} (g.referencedBy t) := by
  refine hw.lists_neighbors hw.sources_nodup fun {u} => ?_
  simp only [Set.mem_ofPred_eq, Content.Refers, mem_references, mem_sources]
  grind

theorem WellFormed.stats_eq (hw : g.WellFormed) :
    g.stats = ⟨g.content.types.card, g.content.expanded.card, g.content.references.card⟩ := by
  have hexpanded : ((g.nodes.toList.filter Node.expanded).map Node.type).Nodup :=
    hw.types_nodup.sublist (List.filter_sublist.map _)
  have hreferences : (g.links.toList.filterMap g.referenceAt?).length = g.links.toList.length :=
    List.filterMap_length_eq_length.mpr fun e he =>
      hw.isSome_referenceAt? (Array.mem_toList_iff.mp he)
  rw [stats, content, List.toFinset_card_of_nodup hw.types_nodup,
    List.toFinset_card_of_nodup hexpanded, List.toFinset_card_of_nodup hw.references_nodup,
    hreferences, types, List.length_map, List.length_map, ← List.countP_eq_length_filter,
    Array.countP_toList, Array.length_toList, Array.length_toList]

end RefScan.Graph
