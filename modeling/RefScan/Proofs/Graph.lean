import Mathlib.Data.Finset.Lattice.Lemmas
import Mathlib.Data.List.Nodup
import RefScan.Graph

/-!
# Numbers and names

A graph keeps its types twice, as nodes and as an index of their numbers, and its references by
number only. It is well-formed as long as the index gives each type the number of its node, no link
is there twice and links join nodes (`WellFormed`). Every operation keeps it so, and does to the
types, marks and references that the numbers stand for (`content`) what it says.
-/

namespace RefScan.Graph

/-- What a graph is about once the numbers are forgotten. -/
@[ext]
structure Content where
  types : Finset TypeName
  expanded : Finset TypeName
  references : Finset Reference

namespace Content

def addType (c : Content) (t : TypeName) : Content := { c with types := insert t c.types }

def addReference (c : Content) (source target : TypeName) : Content :=
  { (c.addType source).addType target with
    references := insert ⟨source, target⟩ c.references }

def markExpanded (c : Content) (t : TypeName) : Content :=
  { c.addType t with expanded := insert t c.expanded }

def Refers (c : Content) (u t : TypeName) : Prop := ⟨u, t⟩ ∈ c.references

end Content

structure WellFormed (g : Graph) : Prop where
  /-- The index and the nodes are inverse to each other. -/
  index : ∀ {t i}, g.index[t]? = some i ↔ g.typeAt? i = some t
  distinct : g.links.toList.Nodup
  inRange : ∀ {i j}, (i, j) ∈ g.links → i < g.nodes.size ∧ j < g.nodes.size

def types (g : Graph) : List TypeName := g.nodes.toList.map Node.type

def content (g : Graph) : Content where
  types := g.types.toFinset
  expanded := ((g.nodes.toList.filter Node.expanded).map Node.type).toFinset
  references := (g.links.toList.filterMap g.referenceAt?).toFinset

variable {g : Graph}

theorem getElem?_types (g : Graph) (i : Nat) : g.types[i]? = g.typeAt? i := by
  simp [types, typeAt?]

theorem typeAt?_eq_some : g.typeAt? i = some t ↔ ∃ node, g.nodes[i]? = some node ∧ node.type = t :=
  Option.map_eq_some_iff

theorem lt_size_of_typeAt? (h : g.typeAt? i = some t) : i < g.nodes.size := by
  obtain ⟨node, hnode, -⟩ := typeAt?_eq_some.mp h
  exact (Array.getElem?_eq_some_iff.mp hnode).1

theorem exists_typeAt? (h : i < g.nodes.size) : ∃ t, g.typeAt? i = some t :=
  ⟨_, typeAt?_eq_some.mpr ⟨_, Array.getElem?_eq_getElem h, rfl⟩⟩

theorem referenceAt?_eq_some :
    g.referenceAt? (i, j) = some r ↔
      g.typeAt? i = some r.source ∧ g.typeAt? j = some r.target := by
  obtain ⟨u, t⟩ := r
  unfold referenceAt?
  split <;> simp_all

theorem mem_types : t ∈ g.content.types ↔ ∃ i, g.typeAt? i = some t := by
  simp only [content, List.mem_toFinset, List.mem_iff_getElem?, getElem?_types]

theorem mem_expanded :
    t ∈ g.content.expanded ↔
      ∃ (i : Nat) (node : Node),
        g.nodes[i]? = some node ∧ node.expanded = true ∧ node.type = t := by
  simp only [content, List.mem_toFinset, List.mem_map, List.mem_filter, Array.mem_toList_iff,
    Array.mem_iff_getElem?]
  grind

theorem mem_references :
    r ∈ g.content.references ↔
      ∃ i j, (i, j) ∈ g.links ∧ g.typeAt? i = some r.source ∧ g.typeAt? j = some r.target := by
  simp only [content, List.mem_toFinset, List.mem_filterMap, Array.mem_toList_iff, Prod.exists,
    referenceAt?_eq_some]

theorem WellFormed.number_unique (hw : g.WellFormed) (hi : g.typeAt? i = some t)
    (hj : g.typeAt? j = some t) : i = j :=
  Option.some.inj ((hw.index.mpr hi).symm.trans (hw.index.mpr hj))

theorem WellFormed.mem_index (hw : g.WellFormed) : t ∈ g.index ↔ t ∈ g.content.types := by
  rw [Std.ExtTreeMap.mem_iff_isSome_getElem?, Option.isSome_iff_exists, mem_types]
  simp only [hw.index]

theorem WellFormed.isSome_referenceAt? (hw : g.WellFormed) (he : e ∈ g.links) :
    (g.referenceAt? e).isSome = true := by
  obtain ⟨i, j⟩ := e
  obtain ⟨hi, hj⟩ := hw.inRange he
  obtain ⟨u, hu⟩ := exists_typeAt? hi
  obtain ⟨t, ht⟩ := exists_typeAt? hj
  simp [referenceAt?_eq_some (r := ⟨u, t⟩) |>.mpr ⟨hu, ht⟩]

theorem WellFormed.types_nodup (hw : g.WellFormed) : g.types.Nodup := by
  refine List.nodup_iff_injective_getElem.mpr fun i j (h : g.types[i] = g.types[j]) => Fin.ext ?_
  have hat (k : Fin g.types.length) : g.typeAt? k = some g.types[k] := by
    rw [← getElem?_types, List.getElem?_eq_getElem k.isLt]
    rfl
  exact hw.number_unique (hat i) (h ▸ hat j)

theorem mem_types_of_refers (h : g.content.Refers u t) :
    u ∈ g.content.types ∧ t ∈ g.content.types := by
  obtain ⟨i, j, -, hi, hj⟩ := mem_references.mp h
  exact ⟨mem_types.mpr ⟨i, hi⟩, mem_types.mpr ⟨j, hj⟩⟩

-- ---------------------------------------------------------------------------
-- Nodes and links
-- ---------------------------------------------------------------------------

theorem wellFormed_empty : empty.WellFormed := by
  constructor
  case index => simp [empty, typeAt?]
  case distinct => simp [empty]
  case inRange => simp [empty]

theorem enter_of_some (h : g.index[t]? = some i) : g.enter t = (i, g) := by
  rw [enter, h]

theorem enter_of_none (h : g.index[t]? = none) :
    g.enter t = (g.nodes.size, { g with
      nodes := g.nodes.push { type := t }
      index := g.index.insert t g.nodes.size }) := by
  rw [enter, h]

theorem typeAt?_push (g : Graph) (t : TypeName) (i : Nat) :
    typeAt? { g with
      nodes := g.nodes.push { type := t }
      index := g.index.insert t g.nodes.size } i =
    if i = g.nodes.size then some t else g.typeAt? i := by
  simp only [typeAt?, Array.getElem?_push]
  split <;> rfl

theorem WellFormed.typeAt?_enter (hw : g.WellFormed) (t : TypeName) :
    (g.enter t).2.typeAt? (g.enter t).1 = some t := by
  cases h : g.index[t]? with
  | some i =>
    rw [enter_of_some h]
    exact hw.index.mp h
  | none => simp [enter_of_none h, typeAt?_push]

theorem typeAt?_enter_of_some (h : g.typeAt? i = some u) (t : TypeName) :
    (g.enter t).2.typeAt? i = some u := by
  cases ht : g.index[t]? with
  | some j => rwa [enter_of_some ht]
  | none => simpa [enter_of_none ht, typeAt?_push, (lt_size_of_typeAt? h).ne] using h

theorem WellFormed.mem_types_iff (hw : g.WellFormed) : t ∈ g.types ↔ g.index[t]? ≠ none := by
  rw [← List.mem_toFinset, ← Option.isSome_iff_ne_none, ← Std.ExtTreeMap.mem_iff_isSome_getElem?]
  exact hw.mem_index.symm

theorem WellFormed.types_enter (hw : g.WellFormed) (t : TypeName) :
    (g.enter t).2.types = if t ∈ g.types then g.types else g.types ++ [t] := by
  cases h : g.index[t]? with
  | some i => simp [enter_of_some h, hw.mem_types_iff, h]
  | none =>
    have hnew : t ∉ g.types := fun ht => hw.mem_types_iff.mp ht h
    rw [enter_of_none h, if_neg hnew]
    simp [types]

theorem WellFormed.enter (hw : g.WellFormed) (t : TypeName) : (g.enter t).2.WellFormed := by
  cases h : g.index[t]? with
  | some i => rwa [enter_of_some h]
  | none =>
    rw [enter_of_none h]
    constructor
    case index =>
      intro u i
      rw [typeAt?_push]
      simp only [Std.ExtTreeMap.getElem?_insert, Std.LawfulEqCmp.compare_eq_iff_eq]
      have hfree : ¬ g.typeAt? i = some t := fun hi => by simp [hw.index.mpr hi] at h
      have hbound : g.typeAt? i = some u → i ≠ g.nodes.size := fun hi => (lt_size_of_typeAt? hi).ne
      have hold := hw.index (t := u) (i := i)
      grind
    case distinct => exact hw.distinct
    case inRange =>
      intro i j hij
      have hlt := hw.inRange hij
      simp only [Array.size_push]
      omega

theorem WellFormed.content_enter (hw : g.WellFormed) (t : TypeName) :
    (g.enter t).2.content = g.content.addType t := by
  have htypes : (g.enter t).2.content.types = insert t g.content.types := by
    ext u
    simp only [content, hw.types_enter, List.mem_toFinset, Finset.mem_insert]
    split <;> grind
  cases h : g.index[t]? with
  | some i =>
    rw [enter_of_some h] at htypes ⊢
    rw [Content.addType, ← htypes]
  | none =>
    rw [enter_of_none h] at htypes ⊢
    refine Content.ext htypes ?_ ?_
    · simp [content, Content.addType]
    · -- a link joins nodes that were there before
      simp only [content, Content.addType]
      congr 1
      refine List.filterMap_congr fun (i, j) hij => ?_
      have hlt := hw.inRange (Array.mem_toList_iff.mp hij)
      simp only [referenceAt?, typeAt?_push, hlt.1.ne, hlt.2.ne, if_false]

theorem WellFormed.link (hw : g.WellFormed) (hi : i < g.nodes.size) (hj : j < g.nodes.size) :
    (g.link i j).WellFormed := by
  unfold Graph.link
  split
  · exact hw
  · rename_i hnew
    constructor
    case index => exact hw.index
    case distinct =>
      rw [Array.toList_push, ← List.concat_eq_append]
      exact hw.distinct.concat (by simpa using hnew)
    case inRange =>
      intro k l hkl
      rcases Array.mem_push.mp hkl with hkl | hkl
      · exact hw.inRange hkl
      · cases hkl
        exact ⟨hi, hj⟩

theorem content_link (hi : g.typeAt? i = some a) (hj : g.typeAt? j = some b) :
    (g.link i j).content = { g.content with references := insert ⟨a, b⟩ g.content.references } := by
  have hr : g.referenceAt? (i, j) = some ⟨a, b⟩ := referenceAt?_eq_some.mpr ⟨hi, hj⟩
  unfold link
  split
  · rename_i hin
    have hmem : ⟨a, b⟩ ∈ g.content.references := mem_references.mpr ⟨i, j, hin, hi, hj⟩
    rw [Finset.insert_eq_of_mem hmem]
  · refine Content.ext rfl rfl ?_
    have hfn : referenceAt? { g with links := g.links.push (i, j) } = g.referenceAt? := rfl
    ext r
    simp only [content, hfn, List.mem_toFinset, Array.toList_push, List.filterMap_append,
      List.filterMap_cons, hr, List.filterMap_nil, List.mem_append, List.mem_singleton,
      Finset.mem_insert]
    exact or_comm

theorem typeAt?_flag (g : Graph) (i : Nat) : (g.flag i).typeAt? = g.typeAt? := by
  funext j
  simp only [typeAt?, flag, Array.getElem?_modify]
  split
  · rw [Option.map_map]
    rfl
  · rfl

theorem WellFormed.flag (hw : g.WellFormed) (i : Nat) : (g.flag i).WellFormed where
  index := by
    intro t j
    rw [typeAt?_flag]
    exact hw.index
  distinct := hw.distinct
  inRange := by
    intro j k hjk
    have hlt := hw.inRange hjk
    simpa [Graph.flag] using hlt

theorem content_flag (hi : g.typeAt? i = some t) :
    (g.flag i).content = { g.content with expanded := insert t g.content.expanded } := by
  refine Content.ext ?_ ?_ ?_
  · ext u
    simp only [mem_types, typeAt?_flag]
  · obtain ⟨node, hnode, rfl⟩ := typeAt?_eq_some.mp hi
    ext u
    simp only [Finset.mem_insert, mem_expanded, flag, Array.getElem?_modify]
    grind
  · ext r
    simp only [mem_references, typeAt?_flag]
    rfl

-- ---------------------------------------------------------------------------
-- Operations
-- ---------------------------------------------------------------------------

theorem WellFormed.addType (hw : g.WellFormed) (t : TypeName) : (g.addType t).WellFormed :=
  hw.enter t

theorem WellFormed.content_addType (hw : g.WellFormed) (t : TypeName) :
    (g.addType t).content = g.content.addType t :=
  hw.content_enter t

theorem WellFormed.typeAt?_ends (hw : g.WellFormed) (a b : TypeName) :
    ((g.enter a).2.enter b).2.typeAt? (g.enter a).1 = some a ∧
    ((g.enter a).2.enter b).2.typeAt? ((g.enter a).2.enter b).1 = some b :=
  ⟨typeAt?_enter_of_some (hw.typeAt?_enter a) b, (hw.enter a).typeAt?_enter b⟩

theorem WellFormed.addReference (hw : g.WellFormed) (a b : TypeName) :
    (g.addReference a b).WellFormed := by
  obtain ⟨ha, hb⟩ := hw.typeAt?_ends a b
  exact ((hw.enter a).enter b).link (lt_size_of_typeAt? ha) (lt_size_of_typeAt? hb)

theorem WellFormed.content_addReference (hw : g.WellFormed) (a b : TypeName) :
    (g.addReference a b).content = g.content.addReference a b := by
  obtain ⟨ha, hb⟩ := hw.typeAt?_ends a b
  refine (content_link ha hb).trans ?_
  rw [(hw.enter a).content_enter, hw.content_enter]
  rfl

theorem WellFormed.markExpanded (hw : g.WellFormed) (t : TypeName) :
    (g.markExpanded t).WellFormed :=
  (hw.enter t).flag _

theorem WellFormed.content_markExpanded (hw : g.WellFormed) (t : TypeName) :
    (g.markExpanded t).content = g.content.markExpanded t := by
  refine (content_flag (hw.typeAt?_enter t)).trans ?_
  rw [hw.content_enter]
  rfl

def addReferences (g : Graph) (source : TypeName) (targets : List TypeName) : Graph :=
  targets.foldl (fun g target => g.addReference source target) g

theorem WellFormed.addReferences (hw : g.WellFormed) (a : TypeName) (ts : List TypeName) :
    (g.addReferences a ts).WellFormed := by
  induction ts generalizing g with
  | nil => exact hw
  | cons t ts ih => exact ih (hw.addReference a t)

theorem WellFormed.content_addReferences (hw : g.WellFormed) (ha : a ∈ g.content.types)
    (ts : List TypeName) :
    (g.addReferences a ts).content =
      { types := g.content.types ∪ ts.toFinset
        expanded := g.content.expanded
        references := g.content.references ∪ (ts.map (Reference.mk a)).toFinset } := by
  induction ts generalizing g with
  | nil => simp [Graph.addReferences]
  | cons t ts ih =>
    have hcontent := hw.content_addReference a t
    have ha' : a ∈ (g.addReference a t).content.types := by
      simp [hcontent, Content.addReference, Content.addType]
    rw [Graph.addReferences, List.foldl_cons, ← Graph.addReferences,
      ih (hw.addReference a t) ha', hcontent]
    simp only [Content.addReference, Content.addType, Finset.insert_eq_of_mem ha, List.map_cons,
      List.toFinset_cons, Finset.insert_union, Finset.union_insert]

end RefScan.Graph
