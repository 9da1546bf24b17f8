import Mathlib.Data.List.Induction
import RefScan.Proofs.Graph.Search

/-!
# A graph by the changes that made it

Every graph comes about by changes of an empty one. It represents what the changes brought
(`Represents`): well-formed, with its types numbered in the order in which they were first
mentioned, and the content that the changes have by themselves. What it answers is up to that
content alone, not to the order or number of the changes.
-/

namespace RefScan.Graph

inductive Change where
  | addType (t : TypeName)
  | addReference (source target : TypeName)
  | markExpanded (t : TypeName)
deriving DecidableEq, Repr

namespace Change

def mentions : Change → List TypeName
  | addType t => [t]
  | addReference a b => [a, b]
  | markExpanded t => [t]

def marks : Change → List TypeName
  | markExpanded t => [t]
  | _ => []

def references : Change → List Reference
  | addReference a b => [⟨a, b⟩]
  | _ => []

end Change

def apply (g : Graph) : Change → Graph
  | .addType t => g.addType t
  | .addReference a b => g.addReference a b
  | .markExpanded t => g.markExpanded t

def ofChanges (cs : List Change) : Graph := cs.foldl apply empty

def firstMentions (cs : List Change) : List TypeName := (cs.flatMap Change.mentions).eraseDups

namespace Content

def apply (c : Content) : Change → Content
  | .addType t => c.addType t
  | .addReference a b => c.addReference a b
  | .markExpanded t => c.markExpanded t

/-- All that was ever mentioned, marked or referred to. -/
def ofChanges (cs : List Change) : Content where
  types := (cs.flatMap Change.mentions).toFinset
  expanded := (cs.flatMap Change.marks).toFinset
  references := (cs.flatMap Change.references).toFinset

theorem ofChanges_append_singleton (cs : List Change) (c : Change) :
    ofChanges (cs ++ [c]) = (ofChanges cs).apply c := by
  have hsplit : ofChanges (cs ++ [c]) =
      { types := (ofChanges cs).types ∪ c.mentions.toFinset
        expanded := (ofChanges cs).expanded ∪ c.marks.toFinset
        references := (ofChanges cs).references ∪ c.references.toFinset } := by
    simp only [ofChanges, List.flatMap_append, List.flatMap_singleton, List.toFinset_append]
  rw [hsplit]
  cases c with
  | addType t => ext x <;> simp [apply, addType, Change.mentions, Change.marks, Change.references]
  | addReference a b =>
    ext x <;>
      simp [apply, addReference, addType, Change.mentions, Change.marks, Change.references,
        or_left_comm]
  | markExpanded t =>
    ext x <;> simp [apply, markExpanded, addType, Change.mentions, Change.marks, Change.references]

end Content

-- ---------------------------------------------------------------------------
-- Changes
-- ---------------------------------------------------------------------------

variable {g : Graph}

theorem WellFormed.apply (hw : g.WellFormed) (c : Change) : (g.apply c).WellFormed := by
  cases c with
  | addType t => exact hw.addType t
  | addReference a b => exact hw.addReference a b
  | markExpanded t => exact hw.markExpanded t

theorem WellFormed.content_apply (hw : g.WellFormed) (c : Change) :
    (g.apply c).content = g.content.apply c := by
  cases c with
  | addType t => exact hw.content_addType t
  | addReference a b => exact hw.content_addReference a b
  | markExpanded t => exact hw.content_markExpanded t

theorem eraseDups_append_singleton (ts : List TypeName) (t : TypeName) :
    (ts ++ [t]).eraseDups = if t ∈ ts then ts.eraseDups else ts.eraseDups ++ [t] := by
  rw [List.eraseDups_append]
  split <;> simp_all [List.removeAll, List.eraseDups_cons]

theorem WellFormed.types_enter_of_eraseDups (hw : g.WellFormed) (h : g.types = ts.eraseDups)
    (t : TypeName) : (g.enter t).2.types = (ts ++ [t]).eraseDups := by
  rw [hw.types_enter, eraseDups_append_singleton, h]
  simp only [List.mem_eraseDups]

theorem types_link (g : Graph) (i j : Nat) : (g.link i j).types = g.types := by
  unfold link
  split <;> rfl

theorem types_flag (g : Graph) (i : Nat) : (g.flag i).types = g.types := by
  apply List.ext_getElem?
  intro j
  rw [getElem?_types, getElem?_types, typeAt?_flag]

theorem WellFormed.types_apply (hw : g.WellFormed) (h : g.types = ts.eraseDups) (c : Change) :
    (g.apply c).types = (ts ++ c.mentions).eraseDups := by
  cases c with
  | addType t => exact hw.types_enter_of_eraseDups h t
  | addReference a b =>
    have hab := (hw.enter a).types_enter_of_eraseDups (hw.types_enter_of_eraseDups h a) b
    rw [List.append_assoc] at hab
    exact (types_link _ _ _).trans hab
  | markExpanded t => exact (types_flag _ _).trans (hw.types_enter_of_eraseDups h t)

structure Represents (g : Graph) (cs : List Change) : Prop where
  wellFormed : g.WellFormed
  types : g.types = firstMentions cs
  content : g.content = Content.ofChanges cs

theorem represents_empty : Represents empty [] where
  wellFormed := wellFormed_empty
  types := rfl
  content := rfl

theorem Represents.apply (h : Represents g cs) (c : Change) :
    Represents (g.apply c) (cs ++ [c]) := by
  constructor
  case wellFormed => exact h.wellFormed.apply c
  case types =>
    rw [firstMentions, List.flatMap_append, List.flatMap_singleton]
    exact h.wellFormed.types_apply h.types c
  case content => rw [h.wellFormed.content_apply, h.content, Content.ofChanges_append_singleton]

theorem represents_ofChanges (cs : List Change) : Represents (ofChanges cs) cs := by
  induction cs using List.reverseRecOn with
  | nil => exact represents_empty
  | append_singleton cs c ih =>
    rw [ofChanges, List.foldl_append]
    exact ih.apply c

-- ---------------------------------------------------------------------------
-- Answers
-- ---------------------------------------------------------------------------

/-- All that can be asked of a graph is answered as its content says. -/
structure Answers (g : Graph) (c : Content) : Prop where
  contains : ∀ t, g.contains t = true ↔ t ∈ c.types
  typeNames : Lists ByName ↑c.types g.typeNames
  edges : Lists ByEnds ↑c.references g.edges
  referencesOf : ∀ t, Lists ByName {u | c.Refers t u} (g.referencesOf t)
  referencedBy : ∀ t, Lists ByName {u | c.Refers u t} (g.referencedBy t)
  closure : ∀ t, Lists ByName (c.behind t) (g.closure t)
  stats : g.stats = ⟨c.types.card, c.expanded.card, c.references.card⟩

theorem WellFormed.answers (hw : g.WellFormed) : g.Answers g.content where
  contains := hw.contains_iff
  typeNames := hw.lists_typeNames
  edges := hw.lists_edges
  referencesOf := hw.lists_referencesOf
  referencedBy := hw.lists_referencedBy
  closure := hw.lists_closure
  stats := hw.stats_eq

theorem Represents.answers (h : Represents g cs) : g.Answers (Content.ofChanges cs) :=
  h.content ▸ h.wellFormed.answers

/-- The two graphs cannot be told apart, unless by the numbers of their types. -/
structure SameAnswers (g g' : Graph) : Prop where
  contains : g.contains = g'.contains
  typeNames : g.typeNames = g'.typeNames
  edges : g.edges = g'.edges
  referencesOf : g.referencesOf = g'.referencesOf
  referencedBy : g.referencedBy = g'.referencedBy
  closure : g.closure = g'.closure
  stats : g.stats = g'.stats

theorem Answers.same (h : g.Answers c) (h' : g'.Answers c) : SameAnswers g g' where
  contains := funext fun t => Bool.eq_iff_iff.mpr (by rw [h.contains, h'.contains])
  typeNames := h.typeNames.unique ByName.asymm h'.typeNames
  edges := h.edges.unique ByEnds.asymm h'.edges
  referencesOf := funext fun t => (h.referencesOf t).unique ByName.asymm (h'.referencesOf t)
  referencedBy := funext fun t => (h.referencedBy t).unique ByName.asymm (h'.referencedBy t)
  closure := funext fun t => (h.closure t).unique ByName.asymm (h'.closure t)
  stats := by rw [h.stats, h'.stats]

-- ---------------------------------------------------------------------------
-- Histories
-- ---------------------------------------------------------------------------

theorem position_ofChanges (cs : List Change) (t : TypeName) :
    (ofChanges cs).position t = (firstMentions (cs ++ [.addType t])).idxOf t := by
  have hbefore := (represents_ofChanges cs).wellFormed
  have hafter : Represents ((ofChanges cs).addType t) (cs ++ [.addType t]) :=
    (represents_ofChanges cs).apply (.addType t)
  have hmem : t ∈ firstMentions (cs ++ [.addType t]) := by
    simp [firstMentions, Change.mentions]
  apply hafter.wellFormed.number_unique (hbefore.typeAt?_enter t)
  rw [← getElem?_types, hafter.types]
  exact List.getElem?_idxOf hmem

theorem idxOf_firstMentions_append (ht : t ∈ cs.flatMap Change.mentions) (more : List Change) :
    (firstMentions (cs ++ more)).idxOf t = (firstMentions cs).idxOf t := by
  rw [firstMentions, List.flatMap_append, List.eraseDups_append,
    List.idxOf_append_of_mem (List.mem_eraseDups.mpr ht), firstMentions]

/-- A graph holds what its changes brought and answers as that says, and so the same for all changes
that bring the same. The number of a type is that of its first mention and stays. -/
theorem ofChanges_answers (cs : List Change) :
    Represents (ofChanges cs) cs ∧
    (ofChanges cs).Answers (Content.ofChanges cs) ∧
    (∀ t, (ofChanges cs).position t = (firstMentions (cs ++ [.addType t])).idxOf t) ∧
    (∀ t more, (ofChanges (cs ++ .addType t :: more)).position t = (ofChanges cs).position t) ∧
    (∀ t ∈ (Content.ofChanges cs).types, ∀ more,
      (ofChanges (cs ++ more)).position t = (ofChanges cs).position t) ∧
    ∀ cs', Content.ofChanges cs' = Content.ofChanges cs →
      SameAnswers (ofChanges cs') (ofChanges cs) := by
  have hrep := represents_ofChanges cs
  refine ⟨hrep, hrep.answers, position_ofChanges cs, ?_, ?_, ?_⟩
  · intro t more
    have hsplit : cs ++ .addType t :: more ++ [.addType t] =
        (cs ++ [.addType t]) ++ (more ++ [.addType t]) := by simp
    rw [position_ofChanges, position_ofChanges, hsplit]
    exact idxOf_firstMentions_append (by simp [Change.mentions]) _
  · intro t ht more
    have ht := List.mem_toFinset.mp ht
    rw [position_ofChanges, position_ofChanges, List.append_assoc,
      idxOf_firstMentions_append ht, idxOf_firstMentions_append ht]
  · intro cs' hcontent
    have hanswers' := (represents_ofChanges cs').answers
    rw [hcontent] at hanswers'
    exact hanswers'.same hrep.answers

/-- The search for a closure ends, with every type on a way from the start once and in order. A way
back to the start, or one that goes round in circles, adds nothing. -/
theorem closure_ofChanges (cs : List Change) (t : TypeName) :
    (t ∈ (Content.ofChanges cs).types → ∀ n, (Content.ofChanges cs).types.card ≤ n →
      (Search.run (ofChanges cs) n (.start ((ofChanges cs).position t))).queue = []) ∧
    Lists ByName ((Content.ofChanges cs).behind t) ((ofChanges cs).closure t) ∧
    (t ∉ (Content.ofChanges cs).types → (ofChanges cs).closure t = []) ∧
    ∀ m ∈ (ofChanges cs).closure t, ∀ k ∈ (ofChanges cs).closure m, k ≠ t →
      k ∈ (ofChanges cs).closure t := by
  have hrep := represents_ofChanges cs
  have hanswers := hrep.answers
  refine ⟨?_, hanswers.closure t, ?_, ?_⟩
  · intro ht n hn
    have hsize : (ofChanges cs).nodes.size = (Content.ofChanges cs).types.card :=
      congrArg GraphStats.types hanswers.stats
    obtain ⟨i, hi⟩ := mem_types.mp (hrep.content ▸ ht)
    have hposition : (ofChanges cs).position t = i := by
      rw [position, enter_of_some (hrep.wellFormed.index.mpr hi)]
    rw [hposition]
    exact Search.queue_run_start hrep.wellFormed (lt_size_of_typeAt? hi) (hsize ▸ hn)
  · intro ht
    refine List.eq_nil_iff_forall_not_mem.mpr fun u hu => ht ?_
    obtain ⟨v, hr, -⟩ := Relation.TransGen.head'_iff.mp ((hanswers.closure t).mem.mp hu).2
    rw [← hrep.content] at hr ⊢
    exact (mem_types_of_refers hr).1
  · intro m hm k hk hne
    rw [(hanswers.closure _).mem] at hm hk ⊢
    exact ⟨hne, hm.2.trans hk.2⟩

end RefScan.Graph
