import RefScan.Proofs.Walk.Ledger

/-!
# Sources that change under way

Files come and go while a scan is on, so that a source may answer otherwise from one step to the
next. A walk never asks twice and cannot notice. What it was told makes up a source that always
answers alike (`known`), and with that source the walk is the same (`runIn_eq_run`); what holds of
all walks then holds of these, too.
-/

namespace RefScan

def ScanRequest.asking (q : ScanRequest) (s : Source) : ScanRequest := { q with source := s }

/-- Answers as `s` does where `w` has asked, and elsewhere as `next` does. -/
def Source.overlay (s : Source) (w : Walk) (next : Source) : Source where
  load t := if t ∈ w.loads then s.load t else next.load t
  resolve name := if name ∈ w.resolved then s.resolve name else next.resolve name

namespace Walk

/-- The walk in which `env n` answers the questions of step `n`. -/
def runIn (env : Nat → Source) (q : ScanRequest) : Nat → Walk
  | 0 => start q
  | n + 1 => (runIn env q n).step (q.asking (env n))

/-- The source as it has shown itself in `n` steps. -/
def known (env : Nat → Source) (q : ScanRequest) : Nat → Source
  | 0 => env 0
  | n + 1 => (known env q n).overlay (runIn env q n) (env n)

variable {q : ScanRequest} {w : Walk} {s : Source}

-- ---------------------------------------------------------------------------
-- Other sources
-- ---------------------------------------------------------------------------

theorem resolve_asking (h : name ∉ w.resolved → s.resolve name = q.source.resolve name) :
    w.resolve (q.asking s) name = w.resolve q name := by
  cases hknown : w.resolved[name]? with
  | some answer => rw [resolve_of_known hknown, resolve_of_known hknown]
  | none =>
    have hnew : name ∉ w.resolved := by
      simp [Std.ExtTreeMap.mem_iff_isSome_getElem?, hknown]
    rw [resolve_of_new hknown, resolve_of_new hknown, ScanRequest.asking, h hnew]

theorem excludes_asking (q : ScanRequest) (s : Source) (w : Walk) (t : TypeName) :
    w.excludes (q.asking s) t = w.excludes q t := by
  cases hknown : w.verdicts[t]? with
  | some v => rw [excludes_of_known hknown, excludes_of_known hknown]
  | none =>
    cases he : q.exclusion with
    | none => rw [excludes_of_none hknown he, excludes_of_none (q := q.asking s) hknown he]
    | some e => rw [excludes_of_some hknown he, excludes_of_some (q := q.asking s) hknown he]

theorem examine_asking (h : name ∉ w.resolved → s.resolve name = q.source.resolve name) :
    w.examine (q.asking s) unit name = w.examine q unit name := by
  have hr : w.counted.resolve (q.asking s) name = w.counted.resolve q name :=
    resolve_asking (w := w.counted) h
  cases hw : w.counted.resolve q name with
  | mk t? w₁ =>
    rw [hw] at hr
    cases t? with
    | none => rw [examine_of_none hw, examine_of_none hr]
    | some t =>
      by_cases ht : t = unit
      · subst ht
        rw [examine_of_self hw, examine_of_self hr]
      · rw [examine_of_other hw ht, examine_of_other hr ht, excludes_asking]

theorem accept_asking (hm : Memo q w) (unit : TypeName)
    (h : ∀ name ∈ names, name ∉ w.resolved → s.resolve name = q.source.resolve name) :
    accept (q.asking s) unit w names = accept q unit w names := by
  induction names generalizing w with
  | nil => rfl
  | cons name names ih =>
    obtain ⟨t?, w₁, hw₁, -, hm₁, -, -, hn₁⟩ := examine_ok hm unit name
    have hrest : ∀ n ∈ names, n ∉ w₁.resolved → s.resolve n = q.source.resolve n :=
      fun n hn hnew =>
        h n (List.mem_cons_of_mem _ hn) fun hold => hnew ((hn₁ n).mpr (.inr hold))
    simp only [accept_cons, examine_asking (h name List.mem_cons_self), hw₁, ih hm₁ hrest]

theorem noteAll_asking (q : ScanRequest) (s : Source) (unit : TypeName) (depth : Nat) (w : Walk)
    (ts : List TypeName) : noteAll (q.asking s) unit depth w ts = noteAll q unit depth w ts := by
  induction ts generalizing w with
  | nil => rfl
  | cons t ts ih =>
    have hnote : w.note (q.asking s) unit depth t = w.note q unit depth t := rfl
    simp only [noteAll, hnote, ih]

theorem expand_asking (h : accept (q.asking s) unit (w.marked unit)
      (Candidates.ofBytes q.options.encoding bytes).toList =
    accept q unit (w.marked unit) (Candidates.ofBytes q.options.encoding bytes).toList) :
    w.expand (q.asking s) unit depth bytes = w.expand q unit depth bytes := by
  cases hw₁ : accept q unit (w.marked unit)
      (Candidates.ofBytes q.options.encoding bytes).toList with
  | mk ts w₁ =>
    cases hw₂ : noteAll q unit depth w₁ ts with
    | mk next w₂ =>
      rw [expand_eq hw₁ hw₂]
      exact expand_eq (h.trans hw₁) ((noteAll_asking q s unit depth w₁ ts).trans hw₂)

/-- A step is up to the bytes of its type and to what the new names in them resolve to. -/
theorem step_asking (hm : Memo q w) (hp : w.pending = (unit, depth) :: rest)
    (hload : s.load unit = q.source.load unit)
    (hresolve : ∀ name ∈ q.source.names q.options.encoding unit, name ∉ w.resolved →
      s.resolve name = q.source.resolve name) :
    w.step (q.asking s) = w.step q := by
  cases hbytes : q.source.load unit with
  | error cause =>
    rw [step_of_load_error hp hbytes,
      step_of_load_error (q := q.asking s) hp (hload.trans hbytes)]
    rfl
  | ok bytes =>
    have hnames : q.source.names q.options.encoding unit =
        Candidates.ofBytes q.options.encoding bytes := by
      simp only [Source.names, hbytes]
    rw [step_of_load hp hbytes, step_of_load (q := q.asking s) hp (hload.trans hbytes)]
    refine expand_asking (accept_asking ?_ unit fun name hn => ?_)
    · exact ⟨hm.resolved, hm.verdicts, hm.questions, hm.nodup⟩
    · exact hresolve name (hnames ▸ Std.ExtTreeSet.mem_toList.mp hn)

/-- A walk is the same with any source that gives the answers it got. -/
theorem run_asking (n : Nat)
    (hload : ∀ u ∈ (run q n (start q)).loads, s.load u = q.source.load u)
    (hresolve : ∀ name ∈ (run q n (start q)).resolved,
      s.resolve name = q.source.resolve name) :
    run (q.asking s) n (start q) = run q n (start q) := by
  induction n with
  | zero => rfl
  | succ n ih =>
    have hi := run_invariant q n
    rw [run_succ] at hload hresolve ⊢
    rw [run_succ q]
    cases hp : (run q n (start q)).pending with
    | nil =>
      rw [step_drained hp] at hload hresolve ⊢
      rw [ih hload hresolve, step_drained hp]
    | cons p rest =>
      obtain ⟨unit, depth⟩ := p
      obtain ⟨next, h⟩ := hi.stepped hp
      have hc := counted_step hi.memo hi.seen (ledger_run q n).tally hp
      rw [h.loads] at hload
      rw [ih (fun u hu => hload u (List.mem_cons_of_mem _ hu))
        fun name hn => hresolve name (hc.resolved.mpr (.inr hn))]
      exact step_asking hi.memo hp (hload unit List.mem_cons_self)
        fun name hn _ => hresolve name (hc.resolved.mpr (.inl hn))

-- ---------------------------------------------------------------------------
-- Sources of what a walk was told
-- ---------------------------------------------------------------------------

variable {env : Nat → Source}

theorem run_known_succ (h : runIn env q n = run (q.asking (known env q n)) n (start q)) :
    run (q.asking (known env q (n + 1))) n (start q) = runIn env q n := by
  have hsame := run_asking (q := q.asking (known env q n)) (s := known env q (n + 1)) n
  rw [show start (q.asking (known env q n)) = start q from rfl, ← h] at hsame
  refine hsame ?_ ?_
  · intro u hu
    exact if_pos hu
  · intro name hn
    exact if_pos hn

theorem runIn_eq_run (env : Nat → Source) (q : ScanRequest) (n : Nat) :
    runIn env q n = run (q.asking (known env q n)) n (start q) := by
  induction n with
  | zero => rfl
  | succ n ih =>
    have hsame := run_known_succ ih
    rw [run_succ, hsame, runIn]
    have hi : Invariant (q.asking (known env q (n + 1))) (runIn env q n) :=
      hsame ▸ run_invariant _ n
    cases hp : (runIn env q n).pending with
    | nil => rw [step_drained hp, step_drained hp]
    | cons p rest =>
      -- what is new to the walk is answered by `env n` in both cases
      refine step_asking (q := q.asking (known env q (n + 1))) hi.memo hp ?_ ?_
      · exact (if_neg (hi.not_mem_loads hp)).symm
      · intro name _ hnew
        exact (if_neg hnew).symm

theorem runIn_succ (env : Nat → Source) (q : ScanRequest) (n : Nat) :
    runIn env q (n + 1) = (runIn env q n).step (q.asking (known env q (n + 1))) := by
  rw [runIn_eq_run env q (n + 1), run_succ, run_known_succ (runIn_eq_run env q n)]

theorem invariant_runIn (env : Nat → Source) (q : ScanRequest) (n : Nat) :
    Invariant (q.asking (known env q (n + 1))) (runIn env q n) := by
  rw [← run_known_succ (runIn_eq_run env q n)]
  exact run_invariant (q.asking (known env q (n + 1))) n

theorem ledger_runIn (env : Nat → Source) (q : ScanRequest) (n : Nat) :
    Ledger (q.asking (known env q (n + 1))) (runIn env q n) := by
  rw [← run_known_succ (runIn_eq_run env q n)]
  exact ledger_run (q.asking (known env q (n + 1))) n

theorem ends_known (h : (runIn env q n).pending = []) : Ends (q.asking (known env q n)) := by
  rw [runIn_eq_run] at h
  exact ⟨n, h⟩

theorem runIn_eq_finished (h : (runIn env q n).pending = []) :
    runIn env q n = finished (q.asking (known env q n)) := by
  rw [runIn_eq_run] at h ⊢
  exact (finished_eq_run h).symm

-- ---------------------------------------------------------------------------
-- Answers that are kept
-- ---------------------------------------------------------------------------

/-- `s` answers every question of the first `n` steps as the source of its step did. -/
structure Recalls (env : Nat → Source) (q : ScanRequest) (n : Nat) (s : Source) : Prop where
  load : ∀ {m u}, m < n → u ∈ (runIn env q (m + 1)).loads → u ∉ (runIn env q m).loads →
    s.load u = (env m).load u
  resolve : ∀ {m name}, m < n → name ∈ (runIn env q (m + 1)).resolutions →
    name ∉ (runIn env q m).resolutions → s.resolve name = (env m).resolve name

theorem tally_runIn (env : Nat → Source) (q : ScanRequest) (n : Nat) :
    Tally (q.asking (known env q n)) (runIn env q n) := by
  rw [runIn_eq_run]
  exact (ledger_run (q.asking (known env q n)) n).tally

theorem records_runIn_succ (env : Nat → Source) (q : ScanRequest) (n : Nat) :
    (runIn env q n).loads ⊆ (runIn env q (n + 1)).loads ∧
      (runIn env q n).resolutions ⊆ (runIn env q (n + 1)).resolutions := by
  have hi := invariant_runIn env q n
  have hl := ledger_runIn env q n
  rw [runIn_succ]
  cases hp : (runIn env q n).pending with
  | nil =>
    rw [step_drained hp]
    exact ⟨List.Subset.refl _, List.Subset.refl _⟩
  | cons p rest =>
    obtain ⟨next, h⟩ := hi.stepped hp
    have hc := counted_step hi.memo hi.seen hl.tally hp
    constructor
    · rw [h.loads]
      exact List.subset_cons_self _ _
    · intro name hn
      exact hc.tally.resolutions.mpr (hc.resolved.mpr (.inr (hl.tally.resolutions.mp hn)))

theorem records_runIn (env : Nat → Source) (q : ScanRequest) (h : m ≤ n) :
    (runIn env q m).loads ⊆ (runIn env q n).loads ∧
      (runIn env q m).resolutions ⊆ (runIn env q n).resolutions := by
  induction h with
  | refl => exact ⟨List.Subset.refl _, List.Subset.refl _⟩
  | step _ ih =>
    obtain ⟨hloads, hresolutions⟩ := records_runIn_succ env q _
    exact ⟨List.Subset.trans ih.1 hloads, List.Subset.trans ih.2 hresolutions⟩

theorem recalls_known (env : Nat → Source) (q : ScanRequest) (n : Nat) :
    Recalls env q n (known env q n) := by
  induction n with
  | zero => exact ⟨fun hm => absurd hm (Nat.not_lt_zero _), fun hm => absurd hm (Nat.not_lt_zero _)⟩
  | succ n ih =>
    constructor
    case load =>
      intro m u hm hu hnew
      rcases Nat.lt_succ_iff_lt_or_eq.mp hm with hm | rfl
      · have hold : u ∈ (runIn env q n).loads := (records_runIn env q hm).1 hu
        exact (if_pos hold).trans (ih.load hm hu hnew)
      · exact if_neg hnew
    case resolve =>
      intro m name hm hn hnew
      have hresolved : name ∈ (runIn env q n).resolutions ↔ name ∈ (runIn env q n).resolved :=
        (tally_runIn env q n).resolutions
      rcases Nat.lt_succ_iff_lt_or_eq.mp hm with hm | rfl
      · have hold : name ∈ (runIn env q n).resolutions := (records_runIn env q hm).2 hn
        exact (if_pos (hresolved.mp hold)).trans (ih.resolve hm hn hnew)
      · exact if_neg (mt hresolved.mpr hnew)

end Walk

end RefScan
