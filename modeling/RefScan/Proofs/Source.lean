import Mathlib.Data.Set.Finite.Basic
import RefScan.Candidate
import RefScan.Source

/-!
# References in a source

`Mentions` and `RefersTo` read references off a source alone, before anything is scanned. A type
mentions finitely many others; how many types a name may resolve to at all (`resolvable`) is up to
the source.
-/

namespace RefScan.Source

def Loads (s : Source) (u : TypeName) : Prop := ∃ bytes, s.load u = .ok bytes

/-- The bytes of `u` load, and a candidate in them resolves to `t`. -/
def Mentions (s : Source) (encoding : Encoding) (u t : TypeName) : Prop :=
  ∃ bytes, s.load u = .ok bytes ∧
    ∃ name ∈ Candidates.ofBytes encoding bytes, s.resolve name = .ok t

/-- What a scan counts as a reference: a mention of another type that is not rejected. -/
def RefersTo (s : Source) (encoding : Encoding) (rejected : TypeName → Prop)
    (u t : TypeName) : Prop :=
  s.Mentions encoding u t ∧ t ≠ u ∧ ¬ rejected t

def names (s : Source) (encoding : Encoding) (u : TypeName) : Candidates :=
  match s.load u with
  | .ok bytes => .ofBytes encoding bytes
  | .error _ => ∅

/-- The types that some name resolves to. -/
def resolvable (s : Source) : Set TypeName := {t | ∃ name, s.resolve name = .ok t}

variable {s : Source}

theorem isOk_iff_loads : (s.load u).isOk = true ↔ s.Loads u := by
  unfold Loads
  cases s.load u <;> simp [Except.isOk, Except.toBool]

theorem loads_of_mem_names (h : name ∈ s.names encoding u) : s.Loads u := by
  unfold names at h
  cases hload : s.load u with
  | ok bytes => exact ⟨bytes, hload⟩
  | error cause => simp [hload] at h

theorem Mentions.loads (h : s.Mentions encoding u t) : s.Loads u := by
  obtain ⟨bytes, hb, -⟩ := h
  exact ⟨bytes, hb⟩

theorem Mentions.mem_resolvable (h : s.Mentions encoding u t) : t ∈ s.resolvable := by
  obtain ⟨_, _, name, _, ht⟩ := h
  exact ⟨name, ht⟩

theorem RefersTo.mono {rejected rejected' : TypeName → Prop} (h : ∀ t, rejected t → rejected' t)
    (hr : s.RefersTo encoding rejected' u t) : s.RefersTo encoding rejected u t :=
  ⟨hr.1, hr.2.1, fun hrejected => hr.2.2 (h t hrejected)⟩

theorem not_mentions_of_load_error (h : s.load u = .error cause) :
    ¬ s.Mentions encoding u t := by
  rintro ⟨bytes, hb, -⟩
  simp [h] at hb

theorem mentions_iff_of_load_ok (h : s.load u = .ok bytes) :
    s.Mentions encoding u t ↔
      ∃ name ∈ (Candidates.ofBytes encoding bytes).toList, s.resolve name = .ok t := by
  constructor
  · rintro ⟨other, hb, name, hn, hr⟩
    cases h.symm.trans hb
    exact ⟨name, Std.ExtTreeSet.mem_toList.mpr hn, hr⟩
  · rintro ⟨name, hn, hr⟩
    exact ⟨bytes, h, name, Std.ExtTreeSet.mem_toList.mp hn, hr⟩

theorem mentions_iff_of_typeNames (names : List String) (hload : s.load u = .ok bytes)
    (hnames : (Candidate.occurrences (encoding.decode bytes)).filterMap (·.typeName?) = names) :
    s.Mentions encoding u t ↔ ∃ name ∈ names, s.resolve name = .ok t := by
  have hmem (name : String) : name ∈ (Candidates.ofBytes encoding bytes).toList ↔ name ∈ names := by
    rw [Std.ExtTreeSet.mem_toList, Candidates.ofBytes, Candidates.ofText,
      Std.ExtTreeSet.mem_ofList, List.contains_iff_mem, hnames]
  simp only [mentions_iff_of_load_ok hload, hmem]

theorem finite_mentions (s : Source) (encoding : Encoding) (u : TypeName) :
    {t | s.Mentions encoding u t}.Finite := by
  cases hload : s.load u with
  | error cause =>
    refine Set.finite_empty.subset fun t ht => ?_
    exact absurd ht (not_mentions_of_load_error hload)
  | ok bytes =>
    let names := (Candidates.ofBytes encoding bytes).toList
    let answers := names.filterMap fun name => (s.resolve name).toOption
    refine answers.finite_toSet.subset fun t ht => ?_
    obtain ⟨name, hname, hresolve⟩ := (mentions_iff_of_load_ok hload).mp ht
    exact List.mem_filterMap.mpr ⟨name, hname, by rw [hresolve]; rfl⟩

end RefScan.Source
