import RefScan.Proofs.Asking
import RefScan.Proofs.Source
import RefScan.Scan.Walk

/-!
# What a walk asks and remembers

How a walk gets at the references of a type, given the answers to a request (`resolve`, `excludes`,
`examine`, `accept`): resolving a name and asking for a verdict extend the memory of the walk
(`Learns`) and keep it true to the source and the exclusion (`Memo`); `accept_ok` puts both together
for all candidates of a type. Nothing is assumed of the exclusion, which may answer by its earlier
questions.
-/

namespace RefScan

namespace Walk

-- ---------------------------------------------------------------------------
-- Questions and their answers
-- ---------------------------------------------------------------------------

variable {q : ScanRequest} {w : Walk}

def resolve (q : ScanRequest) (w : Walk) (name : String) : Option TypeName × Walk :=
  (w.askResolve name).eval q.answers

def excludes (q : ScanRequest) (w : Walk) (t : TypeName) : Bool × Walk :=
  (w.askExcludes q t).eval q.answers

def examine (q : ScanRequest) (unit : TypeName) (w : Walk) (name : String) :
    Option TypeName × Walk :=
  (w.askExamine q unit name).eval q.answers

def accept (q : ScanRequest) (unit : TypeName) (w : Walk) (names : List String) :
    List TypeName × Walk :=
  (askAccept q unit w names).eval q.answers

theorem resolve_of_known (h : w.resolved[name]? = some answer) :
    w.resolve q name = (answer, w) := by
  simp only [resolve, askResolve, h]
  rfl

theorem resolve_of_new (h : w.resolved[name]? = none) :
    w.resolve q name =
      ((q.source.resolve name).toOption, w.told name (q.source.resolve name)) := by
  simp only [resolve, askResolve, h]
  rfl

theorem excludes_of_known (h : w.verdicts[t]? = some v) : w.excludes q t = (v, w) := by
  simp only [excludes, askExcludes, h]
  rfl

theorem excludes_of_none (h : w.verdicts[t]? = none) (he : q.exclusion = none) :
    w.excludes q t = (false, { w with verdicts := w.verdicts.insert t false }) := by
  simp only [excludes, askExcludes, h, he]
  rfl

theorem excludes_of_some (h : w.verdicts[t]? = none) (he : q.exclusion = some e) :
    w.excludes q t = (e w.questions t, w.judged t (e w.questions t)) := by
  simp [excludes, askExcludes, h, he, Asking.eval, ScanRequest.answers,
    Source.answers]

theorem examine_of_none (h : w.counted.resolve q name = (none, w')) :
    w.examine q unit name = (none, w') := by
  simp only [examine, askExamine, Asking.eval_bind]
  rw [← resolve, h]
  rfl

theorem examine_of_self (h : w.counted.resolve q name = (some unit, w')) :
    w.examine q unit name = (none, w') := by
  simp only [examine, askExamine, Asking.eval_bind]
  rw [← resolve, h]
  simp

theorem examine_of_other (h : w.counted.resolve q name = (some t, w')) (ht : t ≠ unit) :
    w.examine q unit name =
      (if (w'.excludes q t).1 then none else some t, (w'.excludes q t).2) := by
  simp only [examine, askExamine, Asking.eval_bind]
  rw [← resolve, h]
  simp only [if_neg ht, Asking.eval_bind]
  rfl

theorem accept_cons (q : ScanRequest) (unit : TypeName) (w : Walk) (name : String)
    (names : List String) :
    accept q unit w (name :: names) =
      ((w.examine q unit name).1.toList ++ (accept q unit (w.examine q unit name).2 names).1,
        (accept q unit (w.examine q unit name).2 names).2) := by
  simp only [accept, askAccept, Asking.eval_bind, examine]
  rfl

-- ---------------------------------------------------------------------------
-- What a walk remembers
-- ---------------------------------------------------------------------------

/-- `v` is what the exclusion says of `t` when the questions come in this order, latest first.
Without an exclusion nothing is excluded. -/
def Verdict (exclusion : Option Exclusion) (questions : List TypeName) (t : TypeName)
    (v : Bool) : Prop :=
  match exclusion with
  | none => v = false
  | some e => ∃ earlier, t :: earlier <:+ questions ∧ e earlier t = v

/-- What the walk remembers is what it was told, and it asks for no verdict twice. -/
structure Memo (q : ScanRequest) (w : Walk) : Prop where
  resolved : ∀ {name answer}, w.resolved[name]? = some answer →
    answer = (q.source.resolve name).toOption
  verdicts : ∀ {t v}, w.verdicts[t]? = some v → Verdict q.exclusion w.questions t v
  questions : ∀ {t}, t ∈ w.questions → t ∈ w.verdicts
  nodup : w.questions.Nodup

/-- `w'` is `w` with more answers. Apart from the memory, the counters of questions and their
record nothing differs. -/
structure Learns (w w' : Walk) : Prop where
  pending : w'.pending = w.pending
  visited : w'.visited = w.visited
  found : w'.found = w.found
  graph : w'.graph = w.graph
  loads : w'.loads = w.loads
  failure : w'.failure = w.failure
  expanded : w'.stats.expanded = w.stats.expanded
  verdicts : ∀ {t : TypeName} {v : Bool}, w.verdicts[t]? = some v → w'.verdicts[t]? = some v

theorem Learns.refl (w : Walk) : Learns w w :=
  ⟨rfl, rfl, rfl, rfl, rfl, rfl, rfl, id⟩

theorem Learns.trans (h : Learns w w') (h' : Learns w' w'') : Learns w w'' :=
  ⟨h'.pending.trans h.pending, h'.visited.trans h.visited, h'.found.trans h.found,
    h'.graph.trans h.graph, h'.loads.trans h.loads, h'.failure.trans h.failure,
    h'.expanded.trans h.expanded, fun hv => h'.verdicts (h.verdicts hv)⟩

theorem exists_verdict {w : Walk} (h : t ∈ w.verdicts) : ∃ v, w.verdicts[t]? = some v :=
  Option.isSome_iff_exists.mp (Std.ExtTreeMap.mem_iff_isSome_getElem?.mp h)

theorem Verdict.cons (h : Verdict exclusion asked t v) (x : TypeName) :
    Verdict exclusion (x :: asked) t v := by
  cases exclusion with
  | none => exact h
  | some e =>
    obtain ⟨earlier, hs, hv⟩ := h
    exact ⟨earlier, hs.trans (List.suffix_cons x asked), hv⟩

-- ---------------------------------------------------------------------------
-- Single questions
-- ---------------------------------------------------------------------------

theorem Memo.of_resolved_insert (h : Memo q w) (name : String)
    (hr : w'.resolved = w.resolved.insert name (q.source.resolve name).toOption)
    (hv : w'.verdicts = w.verdicts) (hq : w'.questions = w.questions) : Memo q w' where
  resolved {n answer} hn := by
    simp only [hr, Std.ExtTreeMap.getElem?_insert, Std.LawfulEqCmp.compare_eq_iff_eq] at hn
    split at hn
    · rename_i he
      rw [← he]
      exact (Option.some.inj hn).symm
    · exact h.resolved hn
  verdicts ht := hq ▸ h.verdicts (hv ▸ ht)
  questions ht := hv ▸ h.questions (hq ▸ ht)
  nodup := hq ▸ h.nodup

theorem resolve_ok (h : Memo q w) (name : String) :
    ∃ w', w.resolve q name = ((q.source.resolve name).toOption, w') ∧ Learns w w' ∧ Memo q w' ∧
      w'.verdicts = w.verdicts ∧ ∀ n, n ∈ w'.resolved ↔ n = name ∨ n ∈ w.resolved := by
  cases hr : w.resolved[name]? with
  | some answer =>
    have hn : name ∈ w.resolved := Std.ExtTreeMap.mem_iff_isSome_getElem?.mpr (by simp [hr])
    refine ⟨w, by rw [resolve_of_known hr, h.resolved hr], .refl w, h, rfl, fun n => ⟨.inr, ?_⟩⟩
    rintro (rfl | hn')
    · exact hn
    · exact hn'
  | none =>
    refine ⟨_, resolve_of_new hr, ⟨rfl, rfl, rfl, rfl, rfl, rfl, rfl, id⟩, ?_, rfl, fun n => ?_⟩
    · exact h.of_resolved_insert name rfl rfl rfl
    · simp [told, @eq_comm _ name n]

theorem Memo.of_verdicts_insert (h : Memo q w) (hnew : t ∉ w.verdicts)
    (hr : w'.resolved = w.resolved) (hv : w'.verdicts = w.verdicts.insert t v)
    (hq : (w'.questions = w.questions ∨ w'.questions = t :: w.questions) ∧
      Verdict q.exclusion w'.questions t v) : Memo q w' where
  resolved hn := h.resolved (hr ▸ hn)
  verdicts {x verdict} hx := by
    simp only [hv, Std.ExtTreeMap.getElem?_insert, Std.LawfulEqCmp.compare_eq_iff_eq] at hx
    split at hx
    · rename_i he
      rw [← he, ← Option.some.inj hx]
      exact hq.2
    · rcases hq.1 with hq | hq
      · exact hq ▸ h.verdicts hx
      · exact hq ▸ (h.verdicts hx).cons t
  questions {x} hx := by
    rw [hv, Std.ExtTreeMap.mem_insert, Std.LawfulEqCmp.compare_eq_iff_eq]
    rcases hq.1 with hq | hq
    · exact .inr (h.questions (hq ▸ hx))
    · rcases List.mem_cons.mp (hq ▸ hx) with rfl | hx
      · exact .inl rfl
      · exact .inr (h.questions hx)
  nodup := by
    rcases hq.1 with hq | hq
    · exact hq ▸ h.nodup
    · exact hq ▸ List.nodup_cons.mpr ⟨fun ht => hnew (h.questions ht), h.nodup⟩

theorem excludes_ok (h : Memo q w) (t : TypeName) :
    ∃ v w', w.excludes q t = (v, w') ∧ Learns w w' ∧ Memo q w' ∧ w'.verdicts[t]? = some v ∧
      w'.resolved = w.resolved ∧ ∀ x, x ∈ w'.verdicts ↔ x = t ∨ x ∈ w.verdicts := by
  cases hknown : w.verdicts[t]? with
  | some v =>
    have ht : t ∈ w.verdicts := Std.ExtTreeMap.mem_iff_isSome_getElem?.mpr (by simp [hknown])
    refine ⟨v, w, excludes_of_known hknown, .refl w, h, hknown, rfl, fun x => ⟨.inr, ?_⟩⟩
    rintro (rfl | hx)
    · exact ht
    · exact hx
  | none =>
    have hnew : t ∉ w.verdicts := by
      simp [Std.ExtTreeMap.mem_iff_isSome_getElem?, hknown]
    have hkeep {v : Bool} {x : TypeName} {verdict : Bool} (hx : w.verdicts[x]? = some verdict) :
        (w.verdicts.insert t v)[x]? = some verdict := by
      have hne : t ≠ x := by
        rintro rfl
        simp [hknown] at hx
      simp [Std.ExtTreeMap.getElem?_insert, hne, hx]
    cases he : q.exclusion with
    | none =>
      refine ⟨_, _, excludes_of_none hknown he, ⟨rfl, rfl, rfl, rfl, rfl, rfl, rfl, hkeep⟩, ?_,
        by simp, rfl, fun x => by simp [@eq_comm _ t x]⟩
      exact h.of_verdicts_insert hnew rfl rfl ⟨.inl rfl, by rw [he]; rfl⟩
    | some e =>
      refine ⟨_, _, excludes_of_some hknown he, ⟨rfl, rfl, rfl, rfl, rfl, rfl, rfl, hkeep⟩, ?_,
        by simp [judged], rfl, fun x => by simp [judged, @eq_comm _ t x]⟩
      exact h.of_verdicts_insert hnew rfl rfl
        ⟨.inr rfl, by rw [he]; exact ⟨w.questions, List.suffix_rfl, rfl⟩⟩

-- ---------------------------------------------------------------------------
-- Candidates of a type
-- ---------------------------------------------------------------------------

/-- A candidate becomes a reference if it resolves to another type of good verdict. The verdict
is asked for unless the type is `unit` itself. -/
theorem examine_ok (h : Memo q w) (unit : TypeName) (name : String) :
    ∃ t? w', w.examine q unit name = (t?, w') ∧ Learns w w' ∧ Memo q w' ∧
      (∀ t, t? = some t ↔
        q.source.resolve name = .ok t ∧ t ≠ unit ∧ w'.verdicts[t]? = some false) ∧
      (∀ t, t ∈ w'.verdicts ↔ (q.source.resolve name = .ok t ∧ t ≠ unit) ∨ t ∈ w.verdicts) ∧
      ∀ n, n ∈ w'.resolved ↔ n = name ∨ n ∈ w.resolved := by
  have hc : Memo q w.counted := ⟨h.resolved, h.verdicts, h.questions, h.nodup⟩
  have hl : Learns w w.counted := ⟨rfl, rfl, rfl, rfl, rfl, rfl, rfl, id⟩
  obtain ⟨w₁, hw₁, hl₁, hm₁, hv₁, hn₁⟩ := resolve_ok hc name
  cases hr : q.source.resolve name with
  | error cause =>
    rw [hr] at hw₁
    refine ⟨_, _, examine_of_none hw₁, hl.trans hl₁, hm₁, ?_, ?_, hn₁⟩
    · simp
    · intro t
      simp [hv₁, counted]
  | ok t =>
    rw [hr] at hw₁
    by_cases ht : t = unit
    · subst ht
      refine ⟨_, _, examine_of_self hw₁, hl.trans hl₁, hm₁, ?_, ?_, hn₁⟩
      · simp
      · intro x
        rw [hv₁]
        constructor
        · exact .inr
        · rintro (⟨hx, hne⟩ | hx)
          · cases hx
            exact absurd rfl hne
          · exact hx
    · obtain ⟨v, w₂, hw₂, hl₂, hm₂, ht₂, hr₂, hv₂⟩ := excludes_ok hm₁ t
      refine ⟨_, _, examine_of_other hw₁ ht, ?_⟩
      rw [hw₂]
      refine ⟨(hl.trans hl₁).trans hl₂, hm₂, fun x => ?_, fun x => ?_, fun n => hr₂ ▸ hn₁ n⟩
      · constructor
        · intro hx
          cases v with
          | true => cases hx
          | false =>
            cases hx
            exact ⟨rfl, ht, ht₂⟩
        · rintro ⟨hx, -, hf⟩
          cases hx
          cases ht₂.symm.trans hf
          rfl
      · rw [hv₂, hv₁]
        constructor
        · rintro (rfl | hx)
          · exact .inl ⟨rfl, ht⟩
          · exact .inr hx
        · rintro (⟨hx, -⟩ | hx)
          · exact .inl (Except.ok.inj hx).symm
          · exact .inr hx

/-- `accept` returns the good references among the candidates and asks for nothing else. A
verdict given to an early candidate still stands at the end, so one memory decides for all. -/
theorem accept_ok (h : Memo q w) (unit : TypeName) (names : List String) :
    ∃ ts w', accept q unit w names = (ts, w') ∧ Learns w w' ∧ Memo q w' ∧
      (∀ t, t ∈ ts ↔ (∃ name ∈ names, q.source.resolve name = .ok t) ∧ t ≠ unit ∧
        w'.verdicts[t]? = some false) ∧
      (∀ t, t ∈ w'.verdicts ↔
        ((∃ name ∈ names, q.source.resolve name = .ok t) ∧ t ≠ unit) ∨ t ∈ w.verdicts) ∧
      ∀ n, n ∈ w'.resolved ↔ n ∈ names ∨ n ∈ w.resolved := by
  induction names generalizing w with
  | nil => exact ⟨[], w, rfl, .refl w, h, by simp, by simp, by simp⟩
  | cons name names ih =>
    obtain ⟨t?, w₁, hw₁, hl₁, hm₁, ht₁, hv₁, hn₁⟩ := examine_ok h unit name
    obtain ⟨ts, w₂, hw₂, hl₂, hm₂, ht₂, hv₂, hn₂⟩ := ih hm₁
    refine ⟨t?.toList ++ ts, w₂, by simp [accept_cons, hw₁, hw₂], hl₁.trans hl₂, hm₂, ?_, ?_, ?_⟩
    · intro t
      rw [List.mem_append, Option.mem_toList, ht₁, ht₂]
      constructor
      · rintro (⟨hr, hne, hf⟩ | ⟨⟨n, hn, hr⟩, hne, hf⟩)
        · exact ⟨⟨name, List.mem_cons_self, hr⟩, hne, hl₂.verdicts hf⟩
        · exact ⟨⟨n, List.mem_cons_of_mem _ hn, hr⟩, hne, hf⟩
      · rintro ⟨⟨n, hn, hr⟩, hne, hf⟩
        rcases List.mem_cons.mp hn with rfl | hn
        · -- the first candidate's verdict is old by now and cannot have changed
          have hasked : t ∈ w₁.verdicts := (hv₁ t).mpr (.inl ⟨hr, hne⟩)
          obtain ⟨v, hv⟩ := exists_verdict hasked
          have hvf : v = false := Option.some.inj ((hl₂.verdicts hv).symm.trans hf)
          exact .inl ⟨hr, hne, hvf ▸ hv⟩
        · exact .inr ⟨⟨n, hn, hr⟩, hne, hf⟩
    · intro t
      rw [hv₂, hv₁]
      simp only [List.mem_cons, exists_eq_or_imp]
      grind
    · intro n
      rw [hn₂, hn₁, List.mem_cons]
      grind

end Walk

end RefScan
