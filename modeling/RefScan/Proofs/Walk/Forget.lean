import RefScan.Proofs.Walk.Ends

/-!
# Records that a walk does not read

A walk keeps a graph and a record of its questions. It never reads the graph, and it reads the
questions only to put them to the exclusion. So a walk that drops some of these records goes on as
before, as long as the exclusion's verdicts stay the same (`Forgets`): dropping them at the end or
at the start comes to the same (`Forgets.finished`). In particular, keeping a graph changes nothing
else about a walk (`finished_unrecorded`).
-/

namespace RefScan.Walk

def forget (g : Option Graph → Option Graph) (k : List TypeName → List TypeName) (w : Walk) :
    Walk :=
  { w with graph := g w.graph, questions := k w.questions }

/-- The walks of `q'` are those of `q` with less of their records. -/
structure Forgets (q q' : ScanRequest) (g : Option Graph → Option Graph)
    (k : List TypeName → List TypeName) : Prop where
  source : q'.source = q.source
  root : q'.root = q.root
  options : q'.options = q.options
  graph : ∀ f x, g (Option.map f x) = (g x).map f
  excludes : ∀ w t, (forget g k w).excludes q' t = (w.excludes q t).map id (forget g k)
  start : start q' = forget g k (start q)

namespace Forgets

variable {q q' : ScanRequest} {g : Option Graph → Option Graph} {k : List TypeName → List TypeName}

theorem resolve (h : Forgets q q' g k) (w : Walk) (name : String) :
    (forget g k w).resolve q' name = (w.resolve q name).map id (forget g k) := by
  cases hknown : w.resolved[name]? with
  | some answer =>
    rw [resolve_of_known hknown, resolve_of_known (w := forget g k w) hknown]
    rfl
  | none =>
    rw [resolve_of_new hknown, resolve_of_new (w := forget g k w) hknown, h.source]
    rfl

theorem examine (h : Forgets q q' g k) (unit : TypeName) (w : Walk) (name : String) :
    (forget g k w).examine q' unit name = (w.examine q unit name).map id (forget g k) := by
  have hr : (forget g k w).counted.resolve q' name = _ := h.resolve w.counted name
  cases hw : w.counted.resolve q name with
  | mk t? w₁ =>
    rw [hw, Prod.map_apply] at hr
    cases t? with
    | none => rw [examine_of_none hw, examine_of_none hr, Prod.map_apply, id_eq]
    | some t =>
      by_cases ht : t = unit
      · subst ht
        rw [examine_of_self hw, examine_of_self hr, Prod.map_apply, id_eq]
      · rw [examine_of_other hw ht, examine_of_other hr ht, h.excludes, Prod.map_apply]
        rfl

theorem accept (h : Forgets q q' g k) (unit : TypeName) (w : Walk) (names : List String) :
    Walk.accept q' unit (forget g k w) names =
      (Walk.accept q unit w names).map id (forget g k) := by
  induction names generalizing w with
  | nil => rfl
  | cons name names ih => simp [accept_cons, h.examine, ih]

theorem note (h : Forgets q q' g k) (unit : TypeName) (depth : Nat) (w : Walk) (t : TypeName) :
    (forget g k w).note q' unit depth t = (w.note q unit depth t).map id (forget g k) := by
  by_cases ht : t = q.root
  · simp [Walk.note, forget, h.root, h.graph, ht]
  cases hrec : q.options.recursive with
  | false => simp [Walk.note, forget, h.root, h.options, h.graph, ht, hrec]
  | true =>
    by_cases hv : t ∈ w.visited <;>
      simp [Walk.note, forget, h.root, h.options, h.graph, ht, hrec, hv]

theorem noteAll (h : Forgets q q' g k) (unit : TypeName) (depth : Nat) (w : Walk)
    (ts : List TypeName) :
    Walk.noteAll q' unit depth (forget g k w) ts =
      (Walk.noteAll q unit depth w ts).map id (forget g k) := by
  induction ts generalizing w with
  | nil => rfl
  | cons t ts ih => simp [Walk.noteAll, h.note, ih]

theorem expand (h : Forgets q q' g k) (unit : TypeName) (depth : Nat) (bytes : Bytes) (w : Walk) :
    (forget g k w).expand q' unit depth bytes = forget g k (w.expand q unit depth bytes) := by
  have hmarked : (forget g k w).marked unit = forget g k (w.marked unit) := by
    simp only [marked, forget, h.graph]
  have ha := h.accept unit (w.marked unit) (Candidates.ofBytes q.options.encoding bytes).toList
  rw [← hmarked] at ha
  cases hw₁ : Walk.accept q unit (w.marked unit)
      (Candidates.ofBytes q.options.encoding bytes).toList with
  | mk ts w₁ =>
    rw [hw₁, Prod.map_apply, ← h.options] at ha
    have hn := h.noteAll unit depth w₁ ts
    cases hw₂ : Walk.noteAll q unit depth w₁ ts with
    | mk next w₂ =>
      rw [hw₂, Prod.map_apply] at hn
      rw [expand_eq hw₁ hw₂, expand_eq ha hn]
      simp only [forget, enqueue, h.options, id_eq]

theorem abandon (h : Forgets q q' g k) (unit : TypeName) (cause : LoadError) (w : Walk) :
    (forget g k w).abandon q' unit cause = forget g k (w.abandon q unit cause) := by
  by_cases hu : unit = q.root <;> simp [Walk.abandon, forget, h.root, hu]

theorem step (h : Forgets q q' g k) (w : Walk) :
    (forget g k w).step q' = forget g k (w.step q) := by
  cases hp : w.pending with
  | nil => rw [step_drained hp, step_drained (w := forget g k w) hp]
  | cons p rest =>
    obtain ⟨unit, depth⟩ := p
    have hp' : (forget g k w).pending = (unit, depth) :: rest := hp
    cases hload : q.source.load unit with
    | ok bytes =>
      rw [step_of_load hp hload, step_of_load hp' (h.source ▸ hload)]
      exact h.expand unit depth bytes (w.opened unit rest)
    | error cause =>
      rw [step_of_load_error hp hload, step_of_load_error hp' (h.source ▸ hload)]
      exact h.abandon unit cause (w.opened unit rest)

theorem run (h : Forgets q q' g k) (n : Nat) :
    Walk.run q' n (Walk.start q') = forget g k (Walk.run q n (Walk.start q)) := by
  induction n with
  | zero => exact h.start
  | succ n ih => rw [run_succ, run_succ, ih, h.step]

theorem ends_iff (h : Forgets q q' g k) : Ends q' ↔ Ends q := by
  simp only [Ends, h.run]
  rfl

theorem finished (h : Forgets q q' g k) (he : Ends q) :
    Walk.finished q' = forget g k (Walk.finished q) := by
  obtain ⟨n, hn⟩ := he
  have hn' : (Walk.run q' n (Walk.start q')).pending = [] := by
    rw [h.run]
    exact hn
  rw [finished_eq_run hn, finished_eq_run hn', h.run]

end Forgets

-- ---------------------------------------------------------------------------
-- Walks with and without a graph
-- ---------------------------------------------------------------------------

def unrecorded (w : Walk) : Walk := { w with graph := none }

theorem forgets_graph (q : ScanRequest) :
    Forgets q { q with recorded := false } (fun _ => none) id where
  source := rfl
  root := rfl
  options := rfl
  graph _ _ := rfl
  excludes w t := by
    cases hknown : w.verdicts[t]? with
    | some v =>
      rw [excludes_of_known hknown]
      exact excludes_of_known (q := { q with recorded := false }) hknown
    | none =>
      cases he : q.exclusion with
      | none =>
        rw [excludes_of_none hknown he]
        exact excludes_of_none (q := { q with recorded := false, exclusion := none }) hknown rfl
      | some e =>
        rw [excludes_of_some hknown he]
        exact excludes_of_some (q := { q with recorded := false, exclusion := some e }) hknown rfl
  start := rfl

theorem finished_unrecorded {q : ScanRequest} (he : Ends q) :
    finished { q with recorded := false } = (finished q).unrecorded :=
  (forgets_graph q).finished he

theorem ends_recorded_iff {s : Source} {options : ScanOptions} {exclusion : Option Exclusion}
    (recorded : Bool) :
    Ends ⟨s, root, options, exclusion, recorded⟩ ↔ s.Ends (some root) options exclusion := by
  rw [Source.Ends, ← (forgets_graph ⟨s, root, options, exclusion, recorded⟩).ends_iff]
  simp only [Option.mem_some_iff, forall_eq']

end RefScan.Walk
