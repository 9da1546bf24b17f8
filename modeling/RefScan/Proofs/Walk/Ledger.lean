import Mathlib.Algebra.BigOperators.Group.List.Basic
import Mathlib.Algebra.Ring.Nat
import RefScan.Proofs.Walk.Invariant

/-!
# What the counters of a walk count

The counters agree with the record of questions (`Tally`): a name is resolved once, a verdict asked
for once, and what came to nothing is counted on the spot. The questions in turn follow from which
types were loaded (`Ledger`), so that in the end every counter can be read off these types alone
(`ledger_finished`). Only one thing goes uncounted, a root whose bytes do not load.
-/

namespace RefScan

def Exclusion.rejections (e : Exclusion) : List TypeName → Nat
  | [] => 0
  | t :: earlier => rejections e earlier + (e earlier t).toNat

theorem Exclusion.rejections_ofPredicate (p : TypeName → Bool) (ts : List TypeName) :
    (ofPredicate p).rejections ts = ts.countP p := by
  induction ts with
  | nil => rfl
  | cons t ts ih =>
    rw [rejections, ih, List.countP_cons, ofPredicate]
    cases p t <;> rfl

namespace Walk

/-- The record of questions is that of the answers, and the counters agree with it. -/
structure Tally (q : ScanRequest) (w : Walk) : Prop where
  resolutions : ∀ {name}, name ∈ w.resolutions ↔ name ∈ w.resolved
  nodup : w.resolutions.Nodup
  unresolved : w.stats.unresolved = w.resolutions.countP fun name => !(q.source.resolve name).isOk
  questions : ∀ {t}, t ∈ w.questions ↔ q.exclusion.isSome = true ∧ t ∈ w.verdicts
  excluded : w.stats.excluded = q.exclusion.elim 0 (·.rejections w.questions)

variable {q : ScanRequest} {w w' : Walk}

theorem Tally.excluded_of_predicate (h : Tally q w) {p : Option (TypeName → Bool)}
    (hp : q.exclusion = p.map .ofPredicate) :
    w.stats.excluded = w.questions.countP fun t => p.any (· t) := by
  rw [h.excluded, hp]
  cases p with
  | none => simp
  | some p => exact Exclusion.rejections_ofPredicate p w.questions

-- ---------------------------------------------------------------------------
-- Questions
-- ---------------------------------------------------------------------------

theorem Tally.resolve (h : Tally q w) (name : String) : Tally q (w.resolve q name).2 := by
  cases hknown : w.resolved[name]? with
  | some answer => rwa [resolve_of_known hknown]
  | none =>
    have hnew : name ∉ w.resolutions := by
      rw [h.resolutions]
      simp [Std.ExtTreeMap.mem_iff_isSome_getElem?, hknown]
    rw [resolve_of_new hknown]
    refine ⟨?_, List.nodup_cons.mpr ⟨hnew, h.nodup⟩, ?_, h.questions, h.excluded⟩
    · simp [told, h.resolutions, @eq_comm _ name]
    · simp only [told, List.countP_cons, h.unresolved]
      cases (q.source.resolve name).isOk <;> rfl

theorem Tally.excludes (h : Tally q w) (t : TypeName) : Tally q (w.excludes q t).2 := by
  cases hknown : w.verdicts[t]? with
  | some v => rwa [excludes_of_known hknown]
  | none =>
    cases he : q.exclusion with
    | none =>
      rw [excludes_of_none hknown he]
      refine ⟨h.resolutions, h.nodup, h.unresolved, fun {x} => ?_, h.excluded⟩
      rw [h.questions]
      simp [he]
    | some e =>
      rw [excludes_of_some hknown he]
      refine ⟨h.resolutions, h.nodup, h.unresolved, fun {x} => ?_, ?_⟩
      · simp [judged, h.questions, he, @eq_comm _ x]
      · simp [judged, h.excluded, he, Exclusion.rejections]

theorem examine_walk (q : ScanRequest) (unit : TypeName) (w : Walk) (name : String) :
    (w.examine q unit name).2 = (w.counted.resolve q name).2 ∨
      ∃ t, (w.examine q unit name).2 = ((w.counted.resolve q name).2.excludes q t).2 := by
  cases hr : w.counted.resolve q name with
  | mk t? w₁ =>
    cases t? with
    | none => exact .inl (by rw [examine_of_none hr])
    | some t =>
      by_cases ht : t = unit
      · subst ht
        exact .inl (by rw [examine_of_self hr])
      · exact .inr ⟨t, by rw [examine_of_other hr ht]⟩

theorem Tally.examine (h : Tally q w) (unit : TypeName) (name : String) :
    Tally q (w.examine q unit name).2 := by
  have hc : Tally q w.counted := ⟨h.resolutions, h.nodup, h.unresolved, h.questions, h.excluded⟩
  rcases examine_walk q unit w name with heq | ⟨t, heq⟩
  · rw [heq]
    exact hc.resolve name
  · rw [heq]
    exact (hc.resolve name).excludes t

theorem Tally.accept (h : Tally q w) (unit : TypeName) (names : List String) :
    Tally q (accept q unit w names).2 := by
  induction names generalizing w with
  | nil => exact h
  | cons name names ih =>
    rw [accept_cons]
    exact ih (h.examine unit name)

theorem resolve_counts (q : ScanRequest) (w : Walk) (name : String) :
    (w.resolve q name).2.stats.candidates = w.stats.candidates ∧
      (w.resolve q name).2.stats.abandoned = w.stats.abandoned := by
  cases hknown : w.resolved[name]? with
  | some answer => simp [resolve_of_known hknown]
  | none => simp [resolve_of_new hknown, told]

theorem excludes_counts (q : ScanRequest) (w : Walk) (t : TypeName) :
    (w.excludes q t).2.stats.candidates = w.stats.candidates ∧
      (w.excludes q t).2.stats.abandoned = w.stats.abandoned := by
  cases hknown : w.verdicts[t]? with
  | some v => simp [excludes_of_known hknown]
  | none =>
    cases he : q.exclusion with
    | none => simp [excludes_of_none hknown he]
    | some e => simp [excludes_of_some hknown he, judged]

theorem examine_counts (q : ScanRequest) (unit : TypeName) (w : Walk) (name : String) :
    (w.examine q unit name).2.stats.candidates = w.stats.candidates + 1 ∧
      (w.examine q unit name).2.stats.abandoned = w.stats.abandoned := by
  obtain ⟨hcand, haband⟩ := resolve_counts q w.counted name
  rcases examine_walk q unit w name with heq | ⟨t, heq⟩
  · rw [heq, hcand, haband]
    exact ⟨rfl, rfl⟩
  · obtain ⟨hcand', haband'⟩ := excludes_counts q (w.counted.resolve q name).2 t
    rw [heq, hcand', haband', hcand, haband]
    exact ⟨rfl, rfl⟩

theorem accept_counts (q : ScanRequest) (unit : TypeName) (w : Walk) (names : List String) :
    (accept q unit w names).2.stats.candidates = w.stats.candidates + names.length ∧
      (accept q unit w names).2.stats.abandoned = w.stats.abandoned := by
  induction names generalizing w with
  | nil => exact ⟨rfl, rfl⟩
  | cons name names ih =>
    obtain ⟨hcand, haband⟩ := examine_counts q unit w name
    obtain ⟨hcand', haband'⟩ := ih (w.examine q unit name).2
    simp only [accept_cons, List.length_cons]
    exact ⟨by omega, by omega⟩

-- ---------------------------------------------------------------------------
-- Steps
-- ---------------------------------------------------------------------------

/-- What a step that takes `unit` off the pending types adds to memory and counters. -/
structure Counted (q : ScanRequest) (unit : TypeName) (w w' : Walk) : Prop where
  tally : Tally q w'
  resolved : ∀ {name}, name ∈ w'.resolved ↔
    name ∈ q.source.names q.options.encoding unit ∨ name ∈ w.resolved
  candidates : w'.stats.candidates =
    w.stats.candidates + (q.source.names q.options.encoding unit).size
  abandoned : w'.stats.abandoned = w.stats.abandoned +
    if (q.source.load unit).isOk ∨ unit = q.root then 0 else 1

theorem counted_expand (hm : Memo q w) (hs : Seen q w.visited w.found) (ht : Tally q w)
    {unit : TypeName} (hload : q.source.load unit = .ok bytes) (depth : Nat) :
    Counted q unit w (expand q unit depth bytes w) := by
  have hm₀ : Memo q (w.marked unit) := ⟨hm.resolved, hm.verdicts, hm.questions, hm.nodup⟩
  have ht₀ : Tally q (w.marked unit) :=
    ⟨ht.resolutions, ht.nodup, ht.unresolved, ht.questions, ht.excluded⟩
  have hnames : q.source.names q.options.encoding unit =
      Candidates.ofBytes q.options.encoding bytes := by
    simp only [Source.names, hload]
  have ht₁ := ht₀.accept unit (Candidates.ofBytes q.options.encoding bytes).toList
  obtain ⟨hcand, haband⟩ := accept_counts q unit (w.marked unit)
    (Candidates.ofBytes q.options.encoding bytes).toList
  obtain ⟨ts, w₁, hw₁, hl, -, -, -, hn⟩ := accept_ok hm₀ unit
    (Candidates.ofBytes q.options.encoding bytes).toList
  obtain ⟨next, v, f, hw₂, -⟩ := noteAll_ok (w := w₁) (hl.visited ▸ hl.found ▸ hs) unit depth ts
  rw [hw₁] at ht₁ hcand haband
  rw [expand_eq hw₁ hw₂]
  constructor
  case tally => exact ⟨ht₁.resolutions, ht₁.nodup, ht₁.unresolved, ht₁.questions, ht₁.excluded⟩
  case resolved =>
    intro name
    rw [hnames, ← Std.ExtTreeSet.mem_toList]
    exact hn name
  case candidates =>
    rw [hnames, ← Std.ExtTreeSet.length_toList]
    exact hcand
  case abandoned =>
    rw [hload, if_pos (.inl rfl)]
    exact haband

theorem counted_abandon (ht : Tally q w) {unit : TypeName}
    (hload : q.source.load unit = .error cause) : Counted q unit w (abandon q unit cause w) := by
  have hnames : q.source.names q.options.encoding unit = ∅ := by
    simp only [Source.names, hload]
  have hfails : (q.source.load unit).isOk = false := by
    rw [hload]
    rfl
  unfold abandon
  by_cases hu : unit = q.root
  · rw [if_pos hu]
    refine ⟨⟨ht.resolutions, ht.nodup, ht.unresolved, ht.questions, ht.excluded⟩, ?_, ?_, ?_⟩
    · simp [hnames]
    · simp [hnames]
    · simp [hu]
  · rw [if_neg hu]
    refine ⟨⟨ht.resolutions, ht.nodup, ht.unresolved, ht.questions, ht.excluded⟩, ?_, ?_, ?_⟩
    · simp [hnames]
    · simp [hnames]
    · simp [hu, hfails]

theorem counted_step (hm : Memo q w) (hs : Seen q w.visited w.found) (ht : Tally q w)
    (hp : w.pending = (unit, depth) :: rest) : Counted q unit w (w.step q) := by
  have hm' : Memo q (w.opened unit rest) := ⟨hm.resolved, hm.verdicts, hm.questions, hm.nodup⟩
  have ht' : Tally q (w.opened unit rest) :=
    ⟨ht.resolutions, ht.nodup, ht.unresolved, ht.questions, ht.excluded⟩
  cases hload : q.source.load unit with
  | ok bytes =>
    rw [step_of_load hp hload]
    obtain ⟨h₁, h₂, h₃, h₄⟩ := counted_expand hm' hs ht' hload depth
    exact ⟨h₁, h₂, h₃, h₄⟩
  | error cause =>
    rw [step_of_load_error hp hload]
    obtain ⟨h₁, h₂, h₃, h₄⟩ := counted_abandon ht' hload
    exact ⟨h₁, h₂, h₃, h₄⟩

-- ---------------------------------------------------------------------------
-- Whole walks
-- ---------------------------------------------------------------------------

/-- Memory and counters by the types that were loaded. -/
structure Ledger (q : ScanRequest) (w : Walk) : Prop where
  tally : Tally q w
  resolved : ∀ {name}, name ∈ w.resolved ↔
    ∃ u ∈ w.loads, name ∈ q.source.names q.options.encoding u
  candidates : w.stats.candidates =
    (w.loads.map fun u => (q.source.names q.options.encoding u).size).sum
  expanded : w.stats.expanded = w.loads.countP fun u => (q.source.load u).isOk
  abandoned : w.failure = none →
    w.stats.abandoned = w.loads.countP fun u => !(q.source.load u).isOk

theorem ledger_start (q : ScanRequest) : Ledger q (start q) := by
  refine ⟨⟨by simp [start], List.nodup_nil, rfl, by simp [start], ?_⟩, by simp [start], rfl, rfl,
    fun _ => rfl⟩
  cases he : q.exclusion <;> rfl

theorem Ledger.of_counted (hl : Ledger q w) (h : Stepped q unit depth rest next w w')
    (hc : Counted q unit w w') : Ledger q w' := by
  constructor
  case tally => exact hc.tally
  case resolved =>
    intro name
    rw [hc.resolved, hl.resolved, h.loads]
    simp only [List.mem_cons, exists_eq_or_imp]
  case candidates =>
    rw [hc.candidates, hl.candidates, h.loads, List.map_cons, List.sum_cons, Nat.add_comm]
  case expanded =>
    rw [h.loads, List.countP_cons, ← hl.expanded]
    rcases h.expanded with ⟨hload, he⟩ | ⟨hload, he⟩
    · rw [he, if_pos (Source.isOk_iff_loads.mpr hload)]
    · rw [he, if_neg (mt Source.isOk_iff_loads.mp hload), Nat.add_zero]
  case abandoned =>
    intro hf
    have hold : w.failure = none := by
      refine Option.eq_none_iff_forall_ne_some.mpr fun e he => ?_
      rw [h.failure.mpr (.inl he)] at hf
      cases hf
    rw [hc.abandoned, hl.abandoned hold, h.loads, List.countP_cons]
    cases hload : q.source.load unit with
    | ok bytes => rfl
    | error cause =>
      -- a root without bytes would have ended the walk
      have hne : unit ≠ q.root := by
        intro hu
        rw [h.failure.mpr (.inr ⟨hu, cause, hload, rfl⟩)] at hf
        cases hf
      simp [hne, Except.isOk, Except.toBool]

theorem ledger_run (q : ScanRequest) (n : Nat) : Ledger q (run q n (start q)) := by
  refine (run_step_induction (ledger_start q) ?_ n).2
  intro w unit depth rest hi hl hp
  obtain ⟨next, h⟩ := hi.stepped hp
  exact hl.of_counted h (counted_step hi.memo hi.seen hl.tally hp)

theorem ledger_finished (he : Ends q) : Ledger q (finished q) := by
  obtain ⟨n, hn⟩ := he.exists_run
  exact hn ▸ ledger_run q _

end Walk

end RefScan
