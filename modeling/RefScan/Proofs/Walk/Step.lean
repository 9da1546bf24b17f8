import RefScan.Proofs.Graph
import RefScan.Proofs.Walk.Answers

/-!
# What one step of a walk does

`step_ok` says it once, for a type whose bytes load and for one whose bytes do not: the type is
recorded as loaded, its accepted references join the graph and the found types, and the new ones
among them become pending if the depth allows it (`Stepped`).
-/

namespace RefScan

namespace Walk

/-- `t` is a reference of `u` by the verdict that the walk remembers. -/
def Accepts (q : ScanRequest) (w : Walk) (u t : TypeName) : Prop :=
  q.source.Mentions q.options.encoding u t ∧ t ≠ u ∧ w.verdicts[t]? = some false

/-- The root is visited and never found; in a recursive scan all found types are visited. -/
structure Seen (q : ScanRequest) (v f : Std.ExtTreeSet TypeName) : Prop where
  found : ∀ {t}, t ∈ f → t ≠ q.root
  visited : ∀ {t}, t ∈ v ↔ t = q.root ∨ (q.options.recursive ∧ t ∈ f)

-- ---------------------------------------------------------------------------
-- Notes
-- ---------------------------------------------------------------------------

variable {q : ScanRequest} {w w' : Walk}

theorem note_ok (h : Seen q w.visited w.found) (unit : TypeName) (depth : Nat) (t : TypeName) :
    ∃ p? v f, w.note q unit depth t =
        (p?, { w with
          graph := w.graph.map (·.addReference unit t), visited := v, found := f }) ∧
      Seen q v f ∧ (∀ x, x ∈ f ↔ (x = t ∧ t ≠ q.root) ∨ x ∈ w.found) ∧
      ∀ p, p? = some p ↔
        p = (t, depth + 1) ∧ q.options.expandsAt (depth + 1) = true ∧ t ∉ w.visited := by
  have hinsert (x : TypeName) : x ∈ w.found.insert t ↔ x = t ∨ x ∈ w.found := by
    simp [@eq_comm _ t x]
  by_cases ht : t = q.root
  · refine ⟨none, w.visited, w.found, by simp [note, ht], h, fun x => by simp [ht], fun p => ?_⟩
    simp [ht, h.visited]
  have hfound (x : TypeName) (hx : x ∈ w.found.insert t) : x ≠ q.root := by
    rcases (hinsert x).mp hx with rfl | hx
    · exact ht
    · exact h.found hx
  cases hrec : q.options.recursive with
  | false =>
    refine ⟨none, w.visited, w.found.insert t, by simp [note, ht, hrec], ⟨hfound _, ?_⟩,
      fun x => by simp [hinsert, ht], fun p => ?_⟩
    · simp [h.visited, hrec]
    · simp [ScanOptions.expandsAt, hrec]
  | true =>
    by_cases hv : t ∈ w.visited
    · refine ⟨none, w.visited, w.found, by simp [note, ht, hrec, hv], h, fun x => ⟨.inr, ?_⟩,
        fun p => by simp [hv]⟩
      rintro (⟨rfl, -⟩ | hx)
      · exact ((h.visited.mp hv).resolve_left ht).2
      · exact hx
    · refine ⟨if q.options.expandsAt (depth + 1) then some (t, depth + 1) else none,
        w.visited.insert t, w.found.insert t, by simp [note, ht, hrec, hv],
        ⟨hfound _, fun {x} => ?_⟩, fun x => by simp [hinsert, ht], fun p => ?_⟩
      · simp only [hinsert, Std.ExtTreeSet.mem_insert, Std.LawfulEqCmp.compare_eq_iff_eq,
          h.visited, hrec]
        grind
      · split <;> simp_all [@eq_comm _ p]

/-- The next types are the new ones among `ts`, each once, if the depth allows for them. -/
theorem noteAll_ok (h : Seen q w.visited w.found) (unit : TypeName) (depth : Nat)
    (ts : List TypeName) :
    ∃ next v f, noteAll q unit depth w ts =
        (next, { w with
          graph := w.graph.map (·.addReferences unit ts), visited := v, found := f }) ∧
      Seen q v f ∧ (∀ t, t ∈ f ↔ (t ∈ ts ∧ t ≠ q.root) ∨ t ∈ w.found) ∧
      (∀ p, p ∈ next ↔ p.2 = depth + 1 ∧ q.options.expandsAt (depth + 1) = true ∧
        p.1 ∈ ts ∧ p.1 ∉ w.visited) ∧
      (next.map Prod.fst).Nodup := by
  induction ts generalizing w with
  | nil =>
    exact ⟨[], w.visited, w.found, by simp [noteAll, Graph.addReferences], h, by simp, by simp,
      List.nodup_nil⟩
  | cons t ts ih =>
    obtain ⟨p?, v₁, f₁, hw₁, hs₁, hf₁, hp₁⟩ := note_ok h unit depth t
    obtain ⟨next, v₂, f₂, hw₂, hs₂, hf₂, hn₂, hd₂⟩ := ih (w := { w with
      graph := w.graph.map (·.addReference unit t), visited := v₁, found := f₁ }) hs₁
    have hvisited (hrec : q.options.recursive = true) (x : TypeName) :
        x ∈ v₁ ↔ x = t ∨ x ∈ w.visited := by
      rw [hs₁.visited, h.visited, hf₁]
      grind
    have hrec (he : q.options.expandsAt (depth + 1) = true) : q.options.recursive = true := by
      simp only [ScanOptions.expandsAt, Bool.and_eq_true] at he
      exact he.1
    refine ⟨p?.toList ++ next, v₂, f₂, ?_, hs₂, fun x => ?_, fun p => ?_, ?_⟩
    · simp [noteAll, hw₁, hw₂, Graph.addReferences, Function.comp_def]
    · rw [hf₂, hf₁, List.mem_cons]
      grind
    · rw [List.mem_append, Option.mem_toList, hp₁, hn₂, List.mem_cons]
      constructor
      · rintro (⟨rfl, he, hv⟩ | ⟨hd, he, ht, hv⟩)
        · exact ⟨rfl, he, .inl rfl, hv⟩
        · exact ⟨hd, he, .inr ht, fun hw => hv ((hvisited (hrec he) _).mpr (.inr hw))⟩
      · rintro ⟨hd, he, ht, hv⟩
        by_cases heq : p.1 = t
        · exact .inl ⟨Prod.ext heq hd, he, heq ▸ hv⟩
        · refine .inr ⟨hd, he, ht.resolve_left heq, fun hw => ?_⟩
          exact ((hvisited (hrec he) _).mp hw).elim heq hv
    · rw [List.map_append, List.nodup_append]
      refine ⟨by cases p? <;> simp, hd₂, ?_⟩
      rintro x hx y hy rfl
      -- what this note queued is visited by now, so the later notes pass it over
      obtain ⟨p, hp, rfl⟩ := List.mem_map.mp hx
      obtain ⟨p', hp', heq⟩ := List.mem_map.mp hy
      obtain ⟨rfl, he, -⟩ := (hp₁ p).mp (Option.mem_toList.mp hp)
      exact ((hn₂ p').mp hp').2.2.2 (heq ▸ (hvisited (hrec he) _).mpr (.inl rfl))

-- ---------------------------------------------------------------------------
-- Steps
-- ---------------------------------------------------------------------------

structure Extended (q : ScanRequest) (unit : TypeName) (w' : Walk) (g g' : Graph) : Prop where
  wellFormed : g'.WellFormed
  refers : ∀ {u t}, g'.content.Refers u t ↔
    (u = unit ∧ Accepts q w' unit t) ∨ g.content.Refers u t
  types : ∀ {t}, t ∈ g'.content.types ↔
    (t = unit ∧ q.source.Loads unit) ∨ Accepts q w' unit t ∨ t ∈ g.content.types
  expanded : (q.source.Loads unit ∧ g'.content.expanded = insert unit g.content.expanded) ∨
    (¬ q.source.Loads unit ∧ g'.content.expanded = g.content.expanded)

/-- The step that takes `unit` off the pending types and leaves `rest` and `next`. A type whose
bytes do not load accepts nothing, so only the counters tell it from one without references. -/
structure Stepped (q : ScanRequest) (unit : TypeName) (depth : Nat)
    (rest next : List (TypeName × Nat)) (w w' : Walk) : Prop where
  loads : w'.loads = unit :: w.loads
  pending : w'.pending = enqueue q next rest
  mem_next : ∀ {p}, p ∈ next ↔ p.2 = depth + 1 ∧ q.options.expandsAt (depth + 1) = true ∧
    Accepts q w' unit p.1 ∧ p.1 ∉ w.visited
  nodup : (next.map Prod.fst).Nodup
  memo : Memo q w'
  verdicts : ∀ {t : TypeName} {v : Bool}, w.verdicts[t]? = some v → w'.verdicts[t]? = some v
  asked : ∀ {t}, t ∈ w'.verdicts ↔
    (q.source.Mentions q.options.encoding unit t ∧ t ≠ unit) ∨ t ∈ w.verdicts
  seen : Seen q w'.visited w'.found
  found : ∀ {t}, t ∈ w'.found ↔ (Accepts q w' unit t ∧ t ≠ q.root) ∨ t ∈ w.found
  graph : w.graph = none ∧ w'.graph = none ∨
    ∃ g g', w.graph = some g ∧ w'.graph = some g' ∧ (g.WellFormed → Extended q unit w' g g')
  expanded : (q.source.Loads unit ∧ w'.stats.expanded = w.stats.expanded + 1) ∨
    (¬ q.source.Loads unit ∧ w'.stats.expanded = w.stats.expanded)
  failure : ∀ {e}, w'.failure = some e ↔ w.failure = some e ∨
    (unit = q.root ∧ ∃ cause, q.source.load unit = .error cause ∧ e = .load unit.name cause)

def expand (q : ScanRequest) (unit : TypeName) (depth : Nat) (bytes : Bytes) (w : Walk) : Walk :=
  (w.askExpand q unit depth bytes).eval q.answers

theorem expand_eq {w₁ w₂ : Walk} (ha : accept q unit (w.marked unit)
      (Candidates.ofBytes q.options.encoding bytes).toList = (ts, w₁))
    (hn : noteAll q unit depth w₁ ts = (next, w₂)) :
    w.expand q unit depth bytes = { w₂ with pending := enqueue q next w₂.pending } := by
  simp only [expand, askExpand, Asking.eval_bind]
  rw [← accept, ha]
  simp only [hn]
  rfl

theorem step_of_load (hp : w.pending = (unit, depth) :: rest)
    (hload : q.source.load unit = .ok bytes) :
    w.step q = (w.opened unit rest).expand q unit depth bytes := by
  simp only [step, askStep, hp, Asking.eval, ScanRequest.answers, Source.answers, hload]
  rfl

theorem step_of_load_error (hp : w.pending = (unit, depth) :: rest)
    (hload : q.source.load unit = .error cause) :
    w.step q = (w.opened unit rest).abandon q unit cause := by
  simp only [step, askStep, hp, Asking.eval, ScanRequest.answers, Source.answers, hload]
  rfl

theorem step_drained (h : w.pending = []) : w.step q = w := by
  simp only [step, askStep, h]
  rfl

theorem not_accepts_of_load_error (h : q.source.load u = .error cause) : ¬ Accepts q w u t :=
  fun ha => Source.not_mentions_of_load_error h ha.1

theorem extended_of_loads (hw : g.WellFormed) (hload : q.source.Loads unit)
    (hts : ∀ t, t ∈ ts ↔ Accepts q w' unit t) :
    Extended q unit w' g ((g.markExpanded unit).addReferences unit ts) := by
  have hmark := hw.content_markExpanded unit
  have hunit : unit ∈ (g.markExpanded unit).content.types := by
    simp [hmark, Graph.Content.markExpanded, Graph.Content.addType]
  have hcontent := (hw.markExpanded unit).content_addReferences hunit ts
  rw [hmark] at hcontent
  constructor
  case wellFormed => exact (hw.markExpanded unit).addReferences unit ts
  case refers =>
    intro u t
    simp only [hcontent, Graph.Content.Refers, Graph.Content.markExpanded, Graph.Content.addType,
      Finset.mem_union, List.mem_toFinset, List.mem_map, Reference.mk.injEq, ← hts]
    grind
  case types =>
    intro t
    simp only [hcontent, Graph.Content.markExpanded, Graph.Content.addType, Finset.mem_union,
      Finset.mem_insert, List.mem_toFinset, ← hts]
    grind
  case expanded => exact .inl ⟨hload, by rw [hcontent]; rfl⟩

theorem expand_ok (hm : Memo q w) (hs : Seen q w.visited w.found) {unit : TypeName}
    (hload : q.source.load unit = .ok bytes) (depth : Nat) (rest : List (TypeName × Nat)) :
    ∃ next, Stepped q unit depth rest next w
      ((w.opened unit rest).expand q unit depth bytes) := by
  have hm₀ : Memo q ((w.opened unit rest).marked unit) :=
    ⟨hm.resolved, hm.verdicts, hm.questions, hm.nodup⟩
  obtain ⟨ts, w₁, hw₁, hl, hm₁, hts, hv, -⟩ := accept_ok hm₀ unit
    (Candidates.ofBytes q.options.encoding bytes).toList
  obtain ⟨next, v, f, hw₂, hs₂, hf, hn, hd⟩ := noteAll_ok (w := w₁)
    (hl.visited ▸ hl.found ▸ hs) unit depth ts
  have hloads : q.source.Loads unit := ⟨bytes, hload⟩
  have haccepts (t : TypeName) : t ∈ ts ↔ Accepts q w₁ unit t := by
    rw [hts, Accepts, Source.mentions_iff_of_load_ok hload]
  rw [expand_eq hw₁ hw₂]
  refine ⟨next, ?_⟩
  constructor
  case loads => exact hl.loads
  case pending =>
    rw [hl.pending]
    rfl
  case mem_next =>
    intro p
    rw [hn, haccepts, hl.visited]
    rfl
  case nodup => exact hd
  case memo => exact ⟨hm₁.resolved, hm₁.verdicts, hm₁.questions, hm₁.nodup⟩
  case verdicts => exact hl.verdicts
  case asked =>
    intro t
    rw [hv, Source.mentions_iff_of_load_ok hload]
    rfl
  case seen => exact hs₂
  case found =>
    intro t
    rw [hf, haccepts, hl.found]
    rfl
  case graph =>
    have hgraph : w₁.graph = w.graph.map (·.markExpanded unit) := hl.graph
    cases hg : w.graph with
    | none => exact .inl ⟨rfl, by simp [hgraph, hg]⟩
    | some g =>
      refine .inr ⟨g, (g.markExpanded unit).addReferences unit ts, rfl, ?_, fun hw => ?_⟩
      · simp only [hgraph, hg, Option.map_some]
      · exact extended_of_loads hw hloads haccepts
  case expanded => exact .inl ⟨hloads, hl.expanded⟩
  case failure =>
    intro e
    simp [hl.failure, opened, marked, hload]

theorem abandon_ok (hm : Memo q w) (hs : Seen q w.visited w.found) {unit : TypeName}
    (hload : q.source.load unit = .error cause) (depth : Nat)
    (hroot : unit = q.root → rest = [] ∧ w.failure = none) :
    Stepped q unit depth rest [] w ((w.opened unit rest).abandon q unit cause) := by
  have hnone {w' : Walk} {t : TypeName} : ¬ Accepts q w' unit t := not_accepts_of_load_error hload
  have hmention {t : TypeName} : ¬ q.source.Mentions q.options.encoding unit t :=
    Source.not_mentions_of_load_error hload
  have hloads : ¬ q.source.Loads unit := by
    rintro ⟨bytes, hb⟩
    simp [hload] at hb
  obtain ⟨f, a, habandon, hf⟩ : ∃ f a, (w.opened unit rest).abandon q unit cause =
        { w.opened unit rest with failure := f, stats := { w.stats with abandoned := a } } ∧
      ∀ e, f = some e ↔ w.failure = some e ∨ (unit = q.root ∧ e = .load unit.name cause) := by
    unfold abandon
    by_cases heq : unit = q.root
    · obtain ⟨rfl, hf⟩ := hroot heq
      exact ⟨_, _, by rw [if_pos heq]; rfl, fun e => by simp [hf, heq, @eq_comm _ e]⟩
    · exact ⟨_, _, by rw [if_neg heq]; rfl, fun e => by simp [heq, opened]⟩
  rw [habandon]
  constructor
  case loads => rfl
  case pending => simp [opened, enqueue]
  case mem_next => simp [hnone]
  case nodup => exact List.nodup_nil
  case memo => exact ⟨hm.resolved, hm.verdicts, hm.questions, hm.nodup⟩
  case verdicts => exact id
  case asked => simp [hmention, opened]
  case seen => exact hs
  case found => simp [hnone, opened]
  case graph =>
    cases hg : w.graph with
    | none => exact .inl ⟨rfl, hg⟩
    | some g =>
      refine .inr ⟨g, g, rfl, hg, fun hw => ⟨hw, by simp [hnone], by simp [hnone, hloads], ?_⟩⟩
      exact .inr ⟨hloads, rfl⟩
  case expanded => exact .inr ⟨hloads, rfl⟩
  case failure =>
    intro e
    simp [hf, hload]

/-- If the root comes up, it must be all there is: the walk forgets what else is pending when the
root has no bytes. -/
theorem step_ok (hm : Memo q w) (hs : Seen q w.visited w.found)
    (hp : w.pending = (unit, depth) :: rest)
    (hroot : unit = q.root → rest = [] ∧ w.failure = none) :
    ∃ next, Stepped q unit depth rest next w (w.step q) := by
  cases hload : q.source.load unit with
  | ok bytes =>
    rw [step_of_load hp hload]
    exact expand_ok hm hs hload depth rest
  | error cause =>
    rw [step_of_load_error hp hload]
    exact ⟨[], abandon_ok hm hs hload depth hroot⟩

end Walk

end RefScan
