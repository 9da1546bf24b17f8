import RefScan.Proofs.Walk.Environment
import RefScan.Proofs.Walk.Forget
import RefScan.Scan.Report

/-!
# Only the root can make a scan fail

A scan fails if there is a root and its bytes do not load, and then it has asked for nothing else.
No later step fails, since the root is never pending again and the source is not asked for its bytes
a second time. A label that names no encoding is the other failure, of the scans that take a label,
and it comes before any question.
-/

namespace RefScan

/-- Both fail in the same way, or both succeed with results that `R` relates. -/
def AgreeBy (R : α → β → Prop) : Except ScanError α → Except ScanError β → Prop
  | .error e, .error e' => e' = e
  | .ok a, .ok b => R a b
  | _, _ => False

theorem AgreeBy.of_ok {R : α → β → Prop} (h : AgreeBy R x y) (hx : x = .ok a) (hy : y = .ok b) :
    R a b := by
  subst hx hy
  exact h

namespace Walk

variable {q : ScanRequest} {w w' : Walk}

theorem outcome_error_iff {view : Walk → α} :
    (w.outcome view).result = .error e ↔ w.failure = some e := by
  unfold outcome
  cases w.failure <;> simp

theorem outcome_eq_ok {view : Walk → α} (h : (w.outcome view).result = .ok a) :
    w.failure = none ∧ a = view w := by
  unfold outcome at h
  cases hf : w.failure with
  | some e => simp [hf] at h
  | none => simpa [hf, eq_comm] using h

theorem outcome_agreeBy {view : Walk → α} {view' : Walk → β} {R : α → β → Prop}
    (hf : w'.failure = w.failure) (h : w.failure = none → R (view w) (view' w')) :
    AgreeBy R (w.outcome view).result (w'.outcome view').result := by
  unfold outcome
  rw [hf]
  cases hw : w.failure with
  | some e => rfl
  | none => exact h hw

theorem step_start_of_load_error (h : q.source.load q.root = .error cause) :
    (start q).step q = { start q with
      pending := [], loads := [q.root], failure := some (.load q.root.name cause) } := by
  rw [step_of_load_error rfl h, abandon, if_pos rfl]
  rfl

theorem drained_of_load_error (h : q.source.load q.root = .error cause) :
    (run q 1 (start q)).pending = [] := by
  rw [run, run, step_start_of_load_error h]

theorem finished_of_load_error (h : q.source.load q.root = .error cause) :
    finished q = { start q with
      pending := [], loads := [q.root], failure := some (.load q.root.name cause) } := by
  rw [finished_eq_run (drained_of_load_error h), run, run, step_start_of_load_error h]

theorem runIn_of_load_error (h : (env 0).load q.root = .error cause) (n : Nat) :
    runIn env q (n + 1) = { start q with
      pending := [], loads := [q.root], failure := some (.load q.root.name cause) } := by
  induction n with
  | zero => exact step_start_of_load_error (q := q.asking (env 0)) h
  | succ n ih =>
    rw [runIn, ih]
    exact step_drained rfl

theorem runIn_failure (env : Nat → Source) (q : ScanRequest) (n : Nat) :
    (runIn env q (n + 1)).failure = some e ↔
      ∃ cause, (env 0).load q.root = .error cause ∧ e = .load q.root.name cause := by
  have hasked : q.root ∈ (runIn env q 1).loads := by
    rw [runIn_eq_run]
    exact root_mem_loads_run (q.asking (known env q 1)) 0
  have hroot : (known env q (n + 1)).load q.root = (env 0).load q.root :=
    (recalls_known env q (n + 1)).load n.succ_pos hasked List.not_mem_nil
  rw [runIn_eq_run, ← hroot]
  exact run_failure (q.asking (known env q (n + 1))) n

end Walk

namespace Source

variable {s : Source} {root : Option TypeName} {options : ScanOptions}
  {exclusion : Option Exclusion}

theorem scanWith_fails_iff (recorded : Bool) (nothing : α) (view : Walk → α) :
    s.Ends root options exclusion ∧
      (s.scanWith root options exclusion recorded nothing view).result = .error e ↔
    ∃ r ∈ root, ∃ cause, s.load r = .error cause ∧ e = .load r.name cause := by
  cases root with
  | none => simp [scanWith]
  | some r =>
    rw [← Walk.ends_recorded_iff recorded]
    simp only [Option.mem_some_iff, exists_eq_left', scanWith, Walk.outcome_error_iff]
    constructor
    · rintro ⟨he, hfailure⟩
      exact (Walk.finished_failure he).mp hfailure
    · rintro ⟨cause, hcause, rfl⟩
      exact ⟨⟨1, Walk.drained_of_load_error hcause⟩, by rw [Walk.finished_of_load_error hcause]⟩

theorem trace_scanWith_of_load_error (recorded : Bool) (nothing : α) (view : Walk → α)
    (h : s.load r = .error cause) :
    (s.scanWith (some r) options exclusion recorded nothing view).trace = { loads := [r] } := by
  have hw := Walk.finished_of_load_error (q := ⟨s, r, options, exclusion, recorded⟩) h
  simp only [scanWith, Walk.outcome, hw]
  rfl

theorem scanLabelled_decode_iff
    (he : ∀ encoding, Encoding.ofLabel label = .ok encoding →
      s.Ends (some r) { encoding, recursive } exclusion) :
    (s.scanLabelled (some r) label recursive exclusion).result = .error (.decode name cause) ↔
      name = r.name ∧ Encoding.ofLabel label = .error cause := by
  unfold scanLabelled
  cases hlabel : Encoding.ofLabel label with
  | error cause' =>
    simp [eq_comm]
  | ok encoding =>
    simp only [reduceCtorEq, and_false, iff_false]
    intro hresult
    obtain ⟨_, -, _, -, hload⟩ := (scanWith_fails_iff false ∅ Walk.found).mp
      ⟨he encoding hlabel, hresult⟩
    cases hload

/-- A scan comes to an error if and only if there is a root and its bytes do not load; then this is
all it has asked for. After its first step no walk fails, not even if the source changes at every
step. A label is only looked at for a root, and it is the first thing to be looked at. -/
theorem fails_iff_root_fails (s : Source) (root : Option TypeName) (options : ScanOptions)
    (exclusion : Option Exclusion) :
    let report := s.report root options exclusion
    let graph := s.graph root options exclusion
    let Fails (e : ScanError) :=
      ∃ r ∈ root, ∃ cause, s.load r = .error cause ∧ e = .load r.name cause
    (s.resolvable.Finite ∨ options.Bounded → s.Ends root options exclusion) ∧
    (∀ e, s.Ends root options exclusion ∧ report.result = .error e ↔ Fails e) ∧
    (∀ e, s.Ends root options exclusion ∧ graph.result = .error e ↔ Fails e) ∧
    (∀ r ∈ root, ∀ cause, s.load r = .error cause →
      report.trace = { loads := [r] } ∧ graph.trace = { loads := [r] }) ∧
    (∀ r ∈ root, ∀ env recorded n,
      let w := Walk.runIn env ⟨env 0, r, options, exclusion, recorded⟩ (n + 1)
      (∀ e, w.failure = some e ↔
        ∃ cause, (env 0).load r = .error cause ∧ e = .load r.name cause) ∧
      ∀ cause, (env 0).load r = .error cause → w.pending = [] ∧ w.trace = { loads := [r] }) ∧
    ∀ label recursive, let labelled := s.scanLabelled root label recursive exclusion
      (∀ r ∈ root, (∀ encoding, Encoding.ofLabel label = .ok encoding →
          s.Ends (some r) { encoding, recursive } exclusion) →
        ∀ name cause, labelled.result = .error (.decode name cause) ↔
          name = r.name ∧ Encoding.ofLabel label = .error cause) ∧
      (∀ cause, Encoding.ofLabel label = .error cause → labelled.trace = {}) ∧
      (root = none → labelled.result = .ok ∅ ∧ labelled.trace = {}) := by
  intro report graph Fails
  refine ⟨ends_of_finite_or_bounded, fun e => ?_, fun e => ?_, ?_, ?_,
    fun label recursive => ⟨?_, ?_, ?_⟩⟩
  · exact scanWith_fails_iff false _ _
  · exact scanWith_fails_iff true _ _
  · rintro r hr cause hcause
    obtain rfl := Option.mem_def.mp hr
    exact ⟨trace_scanWith_of_load_error false _ _ hcause,
      trace_scanWith_of_load_error true _ _ hcause⟩
  · intro r _ env recorded n w
    refine ⟨fun e => Walk.runIn_failure env _ n, fun cause hcause => ?_⟩
    have hw : w = _ := Walk.runIn_of_load_error hcause n
    rw [hw]
    exact ⟨rfl, rfl⟩
  · rintro r hr he name cause
    obtain rfl := Option.mem_def.mp hr
    exact scanLabelled_decode_iff he
  · intro cause hcause
    cases root with
    | none => rfl
    | some r => simp only [scanLabelled, hcause]
  · rintro rfl
    exact ⟨rfl, rfl⟩

end Source

end RefScan
