import Mathlib.Data.List.Perm.Subperm
import Mathlib.Logic.Relation
import RefScan.Proofs.Graph.Listing

/-!
# Searches along references

A search looks at every node that it meets and keeps each of them once. Links lead to nodes only, so
there is an end to that: as many steps as there are nodes leave the queue empty (`queue_run_start`).
By then what was reached is what one or more links lead to, the start apart, cycles or not; named
instead of numbered, that is what a closure lists (`lists_closure`).
-/

namespace RefScan.Graph

/-- What one or more references lead to from `t`, `t` itself apart. -/
def Content.behind (c : Content) (t : TypeName) : Set TypeName :=
  {u | u ≠ t ∧ Relation.TransGen c.Refers t u}

def Linked (g : Graph) (i j : Nat) : Prop := (i, j) ∈ g.links

theorem WellFormed.lt_of_transGen {g : Graph} (hw : g.WellFormed)
    (h : Relation.TransGen g.Linked i j) : j < g.nodes.size := by
  cases h with
  | single hl => exact (hw.inRange hl).2
  | tail _ hl => exact (hw.inRange hl).2

theorem WellFormed.transGen_refers_iff {g : Graph} (hw : g.WellFormed) (ha : g.typeAt? i = some a) :
    Relation.TransGen g.content.Refers a t ↔
      ∃ j, Relation.TransGen g.Linked i j ∧ g.typeAt? j = some t := by
  constructor
  · intro h
    induction h with
    | single hr =>
      obtain ⟨k, j, hl, hk, hj⟩ := mem_references.mp hr
      cases hw.number_unique ha hk
      exact ⟨j, .single hl, hj⟩
    | tail _ hr ih =>
      obtain ⟨m, hway, hm⟩ := ih
      obtain ⟨k, j, hl, hk, hj⟩ := mem_references.mp hr
      cases hw.number_unique hm hk
      exact ⟨j, hway.tail hl, hj⟩
  · rintro ⟨j, h, hj⟩
    induction h generalizing t with
    | single hl => exact .single (mem_references.mpr ⟨i, _, hl, ha, hj⟩)
    | @tail m j hway hl ih =>
      obtain ⟨u, hu⟩ := exists_typeAt? (hw.lt_of_transGen hway)
      exact (ih hu).tail (mem_references.mpr ⟨m, j, hl, hu, hj⟩)

-- ---------------------------------------------------------------------------
-- Searches
-- ---------------------------------------------------------------------------

namespace Search

/-- What a search gets from meeting some nodes: the new ones among them, each once. -/
structure Met (s : Search) (is new : List Nat) (s' : Search) : Prop where
  queue : s'.queue = s.queue ++ new
  reached : s'.reached = new.reverse ++ s.reached
  visited : ∀ {x}, x ∈ s'.visited ↔ x ∈ s.visited ∨ x ∈ new
  mem : ∀ {x}, x ∈ new ↔ x ∈ is ∧ x ∉ s.visited
  nodup : new.Nodup

theorem exists_met (s : Search) (is : List Nat) : ∃ new, Met s is new (is.foldl meet s) := by
  induction is generalizing s with
  | nil => exact ⟨[], by simp, by simp, by simp, by simp, .nil⟩
  | cons i is ih =>
    rw [List.foldl_cons]
    by_cases hi : i ∈ s.visited
    · obtain ⟨new, h⟩ := ih s
      rw [meet, if_pos hi]
      refine ⟨new, h.queue, h.reached, h.visited, ?_, h.nodup⟩
      intro x
      rw [h.mem, List.mem_cons]
      constructor
      · exact fun ⟨hx, hnew⟩ => ⟨.inr hx, hnew⟩
      · rintro ⟨rfl | hx, hnew⟩
        · exact absurd hi hnew
        · exact ⟨hx, hnew⟩
    · obtain ⟨new, h⟩ := ih (s.meet i)
      rw [meet, if_neg hi] at h ⊢
      refine ⟨i :: new, by simp [h.queue], by simp [h.reached], ?_, ?_, ?_⟩
      · intro x
        simp only [h.visited, Std.ExtTreeSet.mem_insert, Std.LawfulEqCmp.compare_eq_iff_eq,
          List.mem_cons]
        grind
      · intro x
        simp only [h.mem, Std.ExtTreeSet.mem_insert, Std.LawfulEqCmp.compare_eq_iff_eq,
          List.mem_cons]
        grind
      · refine List.nodup_cons.mpr ⟨fun hm => (h.mem.mp hm).2 ?_, h.nodup⟩
        simp

structure Invariant (g : Graph) (a : Nat) (s : Search) : Prop where
  visited : ∀ {x}, x ∈ s.visited ↔ x = a ∨ x ∈ s.reached
  apart : a ∉ s.reached
  nodup : s.reached.Nodup
  queued : ∀ {x}, x ∈ s.queue → x ∈ s.visited
  sound : ∀ {x}, x ∈ s.reached → Relation.TransGen g.Linked a x
  /-- What a node is linked to has been met, unless it is still to be looked at. -/
  closed : ∀ {u t}, u ∈ s.visited → u ∉ s.queue → g.Linked u t → t ∈ s.visited

theorem invariant_start (g : Graph) (a : Nat) : Invariant g a (start a) := by
  constructor
  case visited => simp [start, @eq_comm _ a]
  case apart => simp [start]
  case nodup => exact .nil
  case queued => simp [start]
  case sound => simp [start]
  case closed => simp +contextual [start, @eq_comm _ a]

variable {g : Graph} {s s' : Search}

theorem Invariant.of_met (h : Invariant g a s) (hq : s.queue = u :: rest)
    (hm : Met { s with queue := rest } (g.targets u) new s') : Invariant g a s' := by
  have hvisited : u ∈ s.visited := h.queued (by simp [hq])
  have hsub {x : Nat} (hx : x ∈ s.visited) : x ∈ s'.visited := hm.visited.mpr (.inl hx)
  have hnew {x : Nat} (hx : x ∈ new) : x ≠ a ∧ x ∉ s.reached := by
    have hx := (hm.mem.mp hx).2
    rwa [h.visited, not_or] at hx
  have hway {x : Nat} (hx : x ∈ new) : Relation.TransGen g.Linked a x := by
    have hr := mem_targets.mp (hm.mem.mp hx).1
    rcases h.visited.mp hvisited with rfl | hu
    · exact .single hr
    · exact .tail (h.sound hu) hr
  constructor
  case visited =>
    intro x
    simp only [hm.visited, h.visited, hm.reached, List.mem_append, List.mem_reverse]
    grind
  case apart =>
    simp only [hm.reached, List.mem_append, List.mem_reverse, not_or]
    exact ⟨fun ha => (hnew ha).1 rfl, h.apart⟩
  case nodup =>
    rw [hm.reached]
    refine (List.nodup_reverse.mpr hm.nodup).append h.nodup ?_
    exact fun x hx hx' => (hnew (List.mem_reverse.mp hx)).2 hx'
  case queued =>
    intro x hx
    rw [hm.queue] at hx
    rcases List.mem_append.mp hx with hx | hx
    · exact hsub (h.queued (hq ▸ List.mem_cons_of_mem _ hx))
    · exact hm.visited.mpr (.inr hx)
  case sound =>
    intro x hx
    rw [hm.reached] at hx
    rcases List.mem_append.mp hx with hx | hx
    · exact hway (List.mem_reverse.mp hx)
    · exact h.sound hx
  case closed =>
    intro v t hv hout hr
    rw [hm.queue, List.mem_append, not_or] at hout
    have hv : v ∈ s.visited := (hm.visited.mp hv).resolve_right hout.2
    by_cases hvu : v = u
    · subst hvu
      by_cases ht : t ∈ s.visited
      · exact hsub ht
      · exact hm.visited.mpr (.inr (hm.mem.mpr ⟨mem_targets.mpr hr, ht⟩))
    · refine hsub (h.closed hv ?_ hr)
      rw [hq, List.mem_cons]
      exact fun hin => hin.elim hvu hout.1

theorem step_of_queue_nil (h : s.queue = []) : s.step g = s := by
  rw [step, h]

theorem exists_met_step (g : Graph) (hq : s.queue = u :: rest) :
    ∃ new, Met { s with queue := rest } (g.targets u) new (s.step g) := by
  rw [step, hq]
  exact exists_met _ _

theorem Invariant.step (h : Invariant g a s) : Invariant g a (s.step g) := by
  cases hq : s.queue with
  | nil => rwa [step_of_queue_nil hq]
  | cons u rest =>
    obtain ⟨new, hm⟩ := exists_met_step g hq
    exact h.of_met hq hm

/-- As many nodes come into the queue as are reached, and one leaves it. -/
theorem length_step (g : Graph) (hq : s.queue ≠ []) :
    (s.step g).reached.length + s.queue.length =
      s.reached.length + (s.step g).queue.length + 1 := by
  obtain ⟨u, rest, hq⟩ := List.exists_cons_of_ne_nil hq
  obtain ⟨new, hm⟩ := exists_met_step g hq
  simp only [hq, hm.reached, hm.queue, List.length_append, List.length_reverse, List.length_cons]
  omega

theorem Invariant.run (h : Invariant g a s) (n : Nat) : Invariant g a (s.run g n) := by
  induction n generalizing s with
  | zero => exact h
  | succ n ih => exact ih h.step

theorem run_of_queue_nil (h : s.queue = []) (n : Nat) : s.run g n = s := by
  induction n with
  | zero => rfl
  | succ n ih => rw [Search.run, step_of_queue_nil h, ih]

theorem length_run {n : Nat} (hq : (s.run g n).queue ≠ []) :
    (s.run g n).reached.length + s.queue.length =
      s.reached.length + (s.run g n).queue.length + n := by
  induction n generalizing s with
  | zero => rfl
  | succ n ih =>
    have hne : s.queue ≠ [] := by
      intro hnil
      rw [run_of_queue_nil hnil] at hq
      exact hq hnil
    have hstep := length_step g hne
    have hrest := ih hq
    rw [Search.run]
    omega

theorem Invariant.length_reached_lt (h : Invariant g a s) (hw : g.WellFormed)
    (ha : a < g.nodes.size) : s.reached.length < g.nodes.size := by
  have hsub : a :: s.reached ⊆ List.range g.nodes.size := by
    intro x hx
    rw [List.mem_range]
    rcases List.mem_cons.mp hx with rfl | hx
    · exact ha
    · exact hw.lt_of_transGen (h.sound hx)
  have hlen := (List.subperm_of_subset (List.nodup_cons.mpr ⟨h.apart, h.nodup⟩) hsub).length_le
  rwa [List.length_cons, List.length_range] at hlen

/-- No more steps are needed than there are nodes, for a search never reaches one twice. -/
theorem queue_run_start (hw : g.WellFormed) (ha : a < g.nodes.size) (hn : g.nodes.size ≤ n) :
    ((start a).run g n).queue = [] := by
  by_contra hq
  have hpos := List.length_pos_iff.mpr hq
  have hlen := length_run hq
  have hlt := ((invariant_start g a).run n).length_reached_lt hw ha
  have hqueue : (start a).queue.length = 1 := rfl
  have hreached : (start a).reached.length = 0 := rfl
  omega

theorem Invariant.mem_reached (h : Invariant g a s) (hq : s.queue = []) :
    t ∈ s.reached ↔ t ≠ a ∧ Relation.TransGen g.Linked a t := by
  constructor
  · intro ht
    exact ⟨fun heq => h.apart (heq ▸ ht), h.sound ht⟩
  · rintro ⟨hne, hway⟩
    have hclosed {u v : Nat} (hu : u ∈ s.visited) : g.Linked u v → v ∈ s.visited :=
      h.closed hu (by simp [hq])
    have hvisited : t ∈ s.visited := by
      clear hne
      induction hway with
      | single hr => exact hclosed (h.visited.mpr (.inl rfl)) hr
      | tail _ hr ih => exact hclosed ih hr
    exact (h.visited.mp hvisited).resolve_left hne

end Search

-- ---------------------------------------------------------------------------
-- Closures
-- ---------------------------------------------------------------------------

theorem WellFormed.lists_closure {g : Graph} (hw : g.WellFormed) (a : TypeName) :
    Lists ByName (g.content.behind a) (g.closure a) := by
  unfold closure
  split
  · rename_i hnone
    refine ⟨.nil, fun {t} => ⟨fun ht => (by cases ht), fun ⟨_, hway⟩ => ?_⟩⟩
    obtain ⟨u, hr, -⟩ := Relation.TransGen.head'_iff.mp hway
    obtain ⟨i, hi⟩ := mem_types.mp (mem_types_of_refers hr).1
    rw [hw.index.mpr hi] at hnone
    cases hnone
  · rename_i i hi
    have ha : g.typeAt? i = some a := hw.index.mp hi
    have hinv := (Search.invariant_start g i).run g.nodes.size
    have hqueue := Search.queue_run_start hw (lt_size_of_typeAt? ha) (Nat.le_refl _)
    refine lists_inOrder byName_of_compare (hw.names_nodup hinv.nodup) fun {t} => ?_
    simp only [List.mem_filterMap, hinv.mem_reached hqueue, Content.behind, Set.mem_ofPred_eq,
      hw.transGen_refers_iff ha]
    constructor
    · rintro ⟨j, ⟨hne, hway⟩, hj⟩
      refine ⟨?_, j, hway, hj⟩
      rintro rfl
      exact hne (hw.number_unique hj ha)
    · rintro ⟨hne, j, hway, hj⟩
      refine ⟨j, ⟨?_, hway⟩, hj⟩
      rintro rfl
      exact hne (Option.some.inj (hj.symm.trans ha))

end RefScan.Graph
