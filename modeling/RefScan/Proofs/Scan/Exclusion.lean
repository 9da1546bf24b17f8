import RefScan.Proofs.Scan.Failure
import RefScan.Proofs.Scan.Within

/-!
# A scan that excludes more finds less

A predicate that rejects more leaves fewer references, and so the scan is within the other one. An
exclusion that rejects nothing only adds to the record of questions, and a walk does not read that
record (`forgets_questions`).
-/

namespace RefScan

def ScanRequest.excluding (q : ScanRequest) (p : Option (TypeName → Bool)) : ScanRequest :=
  { q with exclusion := p.map .ofPredicate }

namespace Walk

variable {q : ScanRequest} {p p' : Option (TypeName → Bool)}

theorem within_excluding (q : ScanRequest) (h : ∀ t, p.any (· t) = true → p'.any (· t) = true) :
    Within (q.excluding p') (q.excluding p) p' p :=
  ⟨rfl, rfl, rfl, rfl, Source.RefersTo.mono h⟩

theorem forgets_questions (q : ScanRequest) {e : Exclusion} (h : ∀ earlier t, e earlier t = false) :
    Forgets { q with exclusion := some e } { q with exclusion := none } id fun _ => [] where
  source := rfl
  root := rfl
  options := rfl
  graph _ _ := rfl
  excludes w t := by
    cases hknown : w.verdicts[t]? with
    | some v =>
      rw [excludes_of_known hknown]
      exact excludes_of_known (q := { q with exclusion := none }) hknown
    | none =>
      rw [excludes_of_some hknown rfl, h]
      exact excludes_of_none (q := { q with exclusion := none }) hknown rfl
  start := rfl

end Walk

namespace Source

variable {s : Source} {root : Option TypeName} {options : ScanOptions}

section
variable {e : Exclusion} (h : ∀ earlier t, e earlier t = false)
include h

theorem ends_never_excluded_iff : s.Ends root options (some e) ↔ s.Ends root options none :=
  forall₂_congr fun r _ => (Walk.forgets_questions ⟨s, r, options, none, false⟩ h).ends_iff.symm

theorem scanWith_never_excluded (he : s.Ends root options none) (recorded : Bool) (nothing : α)
    {view : Walk → α} (hview : ∀ w, view (w.forget id fun _ => []) = view w) :
    (s.scanWith root options (some e) recorded nothing view).result =
      (s.scanWith root options none recorded nothing view).result := by
  cases root with
  | none => rfl
  | some root =>
    have hsame := (Walk.forgets_questions ⟨s, root, options, none, recorded⟩ h).finished
      ((Walk.ends_recorded_iff recorded).mpr ((ends_never_excluded_iff h).mpr he))
    simp only [scanWith, Walk.outcome]
    rw [hsame, hview]
    rfl

end

/-- Where one predicate rejects what another rejects and maybe more, its scans fail as the other's
do and end if the other's do. Then they load no other types, find no other types and have no other
references. To reject nothing is to exclude nothing. -/
theorem scan_shrinks (s : Source) (root : Option TypeName) (options : ScanOptions)
    {p p' : Option (TypeName → Bool)} (h : ∀ t, p.any (· t) = true → p'.any (· t) = true) :
    let Ends (p : Option (TypeName → Bool)) := s.Ends root options (p.map .ofPredicate)
    let report (p : Option (TypeName → Bool)) := s.report root options (p.map .ofPredicate)
    let graph (p : Option (TypeName → Bool)) := s.graph root options (p.map .ofPredicate)
    (s.resolvable.Finite ∨ options.Bounded → Ends p) ∧
    (∀ e, Ends p' ∧ (report p').result = .error e ↔ Ends p ∧ (report p).result = .error e) ∧
    (Ends p → Ends p' ∧
      AgreeBy (fun r r' => ∀ t ∈ r'.found, t ∈ r.found) (report p).result (report p').result ∧
      (report p').trace.loads ⊆ (report p).trace.loads ∧
      AgreeBy (fun g g' => g'.edges ⊆ g.edges) (graph p).result (graph p').result) ∧
    ∀ e : Exclusion, (∀ earlier t, e earlier t = false) →
      (s.Ends root options (some e) ↔ s.Ends root options none) ∧
      (s.Ends root options none →
        (s.report root options (some e)).result = (s.report root options none).result ∧
        (s.graph root options (some e)).result = (s.graph root options none).result) := by
  intro Ends report graph
  refine ⟨ends_of_finite_or_bounded, fun e => ?_, fun he => ?_, fun e hsilent => ?_⟩
  · exact (scanWith_fails_iff false _ _).trans (scanWith_fails_iff false _ _).symm
  · cases root with
    | none =>
      refine ⟨fun r hr => ?_, fun _ ht => ht, List.Subset.refl _, List.Subset.refl _⟩
      simp at hr
    | some root =>
      let q (recorded : Bool) : ScanRequest := ⟨s, root, options, none, recorded⟩
      have hwithin (recorded : Bool) := Walk.within_excluding (q recorded) h
      have hends (recorded : Bool) : Walk.Ends ((q recorded).excluding p) :=
        (Walk.ends_recorded_iff recorded).mpr he
      have hends' (recorded : Bool) := (hwithin recorded).ends (hends recorded)
      have hfailure (recorded : Bool) :=
        Walk.finished_failure_congr (hends recorded) (hends' recorded) rfl rfl
      refine ⟨(Walk.ends_recorded_iff false).mp (hends' false), ?_, ?_, ?_⟩
      · exact Walk.outcome_agreeBy (hfailure false) fun _ t ht =>
          (hwithin false).found (hends false) ht
      · intro t ht
        exact List.mem_reverse.mpr ((hwithin false).loads (hends false) (List.mem_reverse.mp ht))
      · exact Walk.outcome_agreeBy (hfailure true) fun _ => (hwithin true).edges (hends true)
          (Walk.records_getD (hends' true) rfl) (Walk.records_getD (hends true) rfl)
  · refine ⟨ends_never_excluded_iff hsilent, fun he => ⟨?_, ?_⟩⟩
    · exact scanWith_never_excluded hsilent he false _ fun _ => rfl
    · exact scanWith_never_excluded hsilent he true _ fun _ => rfl

/-- All names resolve and there is no limit, but the scan ends. The second predicate also rejects
the type that leads to all others. -/
theorem scan_shrinks_boundless :
    let options : ScanOptions := { recursive := true }
    let more (t : TypeName) : Bool := looped.rejects t || t.name == "a.B"
    (∀ t, (some looped.rejects).any (· t) = true → (some more).any (· t) = true) ∧
    boundless.resolvable.Infinite ∧
    boundless.Ends (some ⟨"a.A"⟩) options (some (.ofPredicate looped.rejects)) ∧
    let report (p : TypeName → Bool) :=
      boundless.report (some ⟨"a.A"⟩) options (some (.ofPredicate p))
    ∃ r r', (report looped.rejects).result = .ok r ∧ (report more).result = .ok r' ∧
      ∀ t ∈ r'.found, t ∈ r.found := by
  intro options more
  have hmore : ∀ t, (some looped.rejects).any (· t) = true → (some more).any (· t) = true := by
    intro t ht
    simp only [Option.any_some] at ht
    simp [more, ht]
  have he : boundless.Ends (some ⟨"a.A"⟩) options (some (.ofPredicate looped.rejects)) :=
    (Walk.ends_recorded_iff false).mp ⟨3, by decide +kernel⟩
  obtain ⟨he', hfound, -⟩ := (scan_shrinks boundless (some ⟨"a.A"⟩) options hmore).2.2.1 he
  have hload : boundless.load ⟨"a.A"⟩ = .ok (utf8Bytes "a/B") := rfl
  have hr : (boundless.report (some ⟨"a.A"⟩) options (some (.ofPredicate looped.rejects))).result =
      .ok _ := scanWith_of_load he hload _ _
  have hr' : (boundless.report (some ⟨"a.A"⟩) options (some (.ofPredicate more))).result = .ok _ :=
    scanWith_of_load he' hload _ _
  exact ⟨hmore, boundless.infinite_resolvable, he, _, _, hr, hr', hfound.of_ok hr hr'⟩

end Source

end RefScan
