import RefScan.Proofs.Scan.Order
import RefScan.Proofs.Universe
import RefScan.Proofs.Walk.Environment

/-!
# How many types a scan loads

Loaded and pending types are all different, and each is the root or something that a name was
resolved to. So a walk over a source that resolves to at most `N` types drains in `N + 1` steps,
however the types refer to each other, whatever fails to load, and even if the source answers
otherwise at every step (`Walk.exists_drained`). For scans this bounds the loads
(`Source.loadsAtMost_of_encard`).
-/

namespace RefScan

namespace Walk

/-- The types that some name resolves to at some step. -/
def resolvableIn (env : Nat → Source) : Set TypeName := {t | ∃ n, t ∈ (env n).resolvable}

variable {env : Nat → Source} {q : ScanRequest}

theorem resolvable_known_subset (env : Nat → Source) (q : ScanRequest) (n : Nat) :
    (known env q n).resolvable ⊆ resolvableIn env := by
  induction n with
  | zero => exact fun t ht => ⟨0, ht⟩
  | succ n ih =>
    rintro t ⟨name, ht⟩
    simp only [known, Source.overlay] at ht
    split at ht
    · exact ih ⟨name, ht⟩
    · exact ⟨n, name, ht⟩

theorem Invariant.root_or_resolvable {w : Walk} (hi : Invariant q w) (ht : t ∈ w.visited) :
    t = q.root ∨ t ∈ q.source.resolvable := by
  refine (hi.seen.visited.mp ht).imp_right fun ⟨_, hfound⟩ => ?_
  obtain ⟨-, u, -, hm, -⟩ := hi.found.mp hfound
  exact hm.mem_resolvable

theorem length_runIn_le {N : Nat} (hN : (resolvableIn env).encard ≤ N) (n : Nat) :
    (runIn env q n).loads.length + (runIn env q n).pending.length ≤ N + 1 := by
  classical
  have hi := invariant_runIn env q n
  let queued := (runIn env q n).loads ++ (runIn env q n).pending.map Prod.fst
  have hsub : (queued.toFinset : Set TypeName) ⊆ insert q.root (resolvableIn env) := by
    intro t ht
    have ht : t ∈ queued := by simpa using ht
    refine (hi.root_or_resolvable (hi.visited (List.mem_append.mp ht))).imp_right fun hres => ?_
    exact resolvable_known_subset env q (n + 1) hres
  have hcard : (queued.length : ℕ∞) ≤ (N + 1 : Nat) :=
    calc (queued.length : ℕ∞) = (queued.toFinset : Set TypeName).encard := by
          rw [Set.encard_coe_eq_coe_finsetCard, List.toFinset_card_of_nodup hi.nodup]
      _ ≤ (insert q.root (resolvableIn env)).encard := Set.encard_le_encard hsub
      _ ≤ (resolvableIn env).encard + 1 := Set.encard_insert_le _ _
      _ ≤ (N + 1 : Nat) := by exact_mod_cast add_le_add_left hN 1
  simpa [queued] using (by exact_mod_cast hcard : queued.length ≤ N + 1)

theorem runIn_length (env : Nat → Source) (q : ScanRequest) (n : Nat) :
    (runIn env q n).pending = [] ∨ (runIn env q n).loads.length = n := by
  rw [runIn_eq_run]
  refine (run_length (invariant_start (q.asking (known env q n))) n).imp_right fun hlen => ?_
  exact hlen.trans (Nat.zero_add n)

theorem runIn_drained (h : (runIn env q k).pending = []) (hn : k ≤ n) :
    runIn env q n = runIn env q k := by
  induction hn with
  | refl => rfl
  | step _ ih => rw [runIn, ih, step_drained h]

/-- A walk takes one pending type at a step and is over when it has taken at most one more than
there are types to resolve to. -/
theorem exists_drained {N : Nat} (hN : (resolvableIn env).encard ≤ N) (q : ScanRequest) :
    ∃ k ≤ N + 1, (runIn env q k).loads.length = k ∧
      (∀ n < k, (runIn env q n).pending ≠ []) ∧
      ∀ n, k ≤ n → (runIn env q n).pending = [] ∧ runIn env q n = runIn env q k := by
  have hdrained : (runIn env q (N + 1)).pending = [] := by
    refine (runIn_length env q (N + 1)).elim id fun hlen => ?_
    have hle := length_runIn_le (q := q) hN (N + 1)
    exact List.eq_nil_of_length_eq_zero (by omega)
  have hex : ∃ k, (runIn env q k).pending = [] := ⟨N + 1, hdrained⟩
  classical
  have hk : (runIn env q (Nat.find hex)).pending = [] := Nat.find_spec hex
  refine ⟨Nat.find hex, Nat.find_min' hex hdrained, ?_, fun n hn => Nat.find_min hex hn,
    fun n hn => ?_⟩
  · -- the step that drains the walk still loads a type
    cases hfind : Nat.find hex with
    | zero =>
      rw [hfind] at hk
      simp [runIn, start] at hk
    | succ m =>
      have hm : (runIn env q m).pending ≠ [] := Nat.find_min hex (by omega)
      obtain ⟨⟨unit, depth⟩, rest, hp⟩ := List.exists_cons_of_ne_nil hm
      obtain ⟨next, hstep⟩ := (invariant_runIn env q m).stepped hp
      rw [runIn_succ, hstep.loads, List.length_cons, (runIn_length env q m).resolve_left hm]
  · have hsame := runIn_drained hk hn
    exact ⟨hsame ▸ hk, hsame⟩

theorem runIn_of_steady (q : ScanRequest) (n : Nat) :
    runIn (fun _ => q.source) q n = run q n (start q) := by
  induction n with
  | zero => rfl
  | succ n ih =>
    rw [runIn, ih, run_succ]
    rfl

theorem length_loads_finished_le {N : Nat} (hN : q.source.resolvable.encard ≤ N) :
    (finished q).loads.length ≤ N + 1 := by
  obtain ⟨n, hn⟩ := (ends_of_finite (Set.finite_of_encard_le_coe hN)).exists_run
  have hsteady : (resolvableIn fun _ => q.source).encard ≤ N := by
    simpa [resolvableIn] using hN
  have hle := length_runIn_le (q := q) hsteady (n + 1)
  rw [runIn_of_steady, ← hn] at hle
  exact Nat.le_of_add_right_le hle

end Walk

theorem Universe.encard_resolvable_le (u : Universe) :
    u.source.resolvable.encard ≤ u.names.length := by
  classical
  let types := u.names.map TypeName.mk
  have hsub : u.source.resolvable ⊆ types.toFinset := fun t ht =>
    Finset.mem_coe.mpr (List.mem_toFinset.mpr (u.resolvable_subset ht))
  refine (Set.encard_le_encard hsub).trans ?_
  rw [Set.encard_coe_eq_coe_finsetCard, ← List.length_map TypeName.mk]
  exact_mod_cast types.toFinset_card_le

namespace Source

/-- No scan loads more than `n` types, whatever its root, options and exclusion. -/
structure LoadsAtMost (s : Source) (n : Nat) : Prop where
  report : ∀ root options exclusion, (s.report root options exclusion).trace.loads.length ≤ n
  graph : ∀ root options exclusion, (s.graph root options exclusion).trace.loads.length ≤ n
  scan : ∀ root options exclusion, (s.scan root options exclusion).trace.loads.length ≤ n
  scanLabelled : ∀ root label recursive exclusion,
    (s.scanLabelled root label recursive exclusion).trace.loads.length ≤ n
  scanMany : ∀ roots options exclusion, ∀ entry ∈ s.scanMany roots options exclusion,
    entry.2.trace.loads.length ≤ n

theorem loads_scanWith_le {s : Source} {N : Nat} (hN : s.resolvable.encard ≤ N)
    (root : Option TypeName) (options : ScanOptions) (exclusion : Option Exclusion)
    (recorded : Bool) (nothing : α) (view : Walk → α) :
    (s.scanWith root options exclusion recorded nothing view).trace.loads.length ≤ N + 1 := by
  cases root with
  | none => exact Nat.zero_le _
  | some root =>
    have hle := Walk.length_loads_finished_le (q := ⟨s, root, options, exclusion, recorded⟩) hN
    simpa [scanWith, Walk.outcome, Walk.trace] using hle

theorem loadsAtMost_of_encard {s : Source} {N : Nat} (hN : s.resolvable.encard ≤ N) :
    s.LoadsAtMost (N + 1) := by
  have hscan (root : Option TypeName) (options : ScanOptions) (exclusion : Option Exclusion) :
      (s.scan root options exclusion).trace.loads.length ≤ N + 1 :=
    loads_scanWith_le hN root options exclusion false _ _
  constructor
  case report => exact fun root o e => loads_scanWith_le hN root o e _ _ _
  case graph => exact fun root o e => loads_scanWith_le hN root o e _ _ _
  case scan => exact hscan
  case scanLabelled =>
    intro root label recursive exclusion
    cases root with
    | none => exact Nat.zero_le _
    | some root =>
      unfold Source.scanLabelled
      cases Encoding.ofLabel label with
      | error cause => exact Nat.zero_le _
      | ok encoding => exact hscan _ _ _
  case scanMany =>
    intro roots options exclusion entry hentry
    obtain ⟨root, -, rfl⟩ := List.mem_map.mp hentry
    exact hscan _ _ _

end Source

/-- Where names resolve to at most `N` types, every walk drains: it takes at most `N + 1` pending
types, one at a step, and then stays as it is. So does the walk of a scan, which loads no more
types than that, and no scan of a universe loads more than one beyond the types in it. -/
theorem Walk.drains_within_resolvable :
    (∀ (env : Nat → Source) (q : ScanRequest) (N : Nat), (resolvableIn env).encard ≤ N →
      ∃ k ≤ N + 1, (runIn env q k).loads.length = k ∧
        (∀ n < k, (runIn env q n).pending ≠ []) ∧
        ∀ n, k ≤ n → (runIn env q n).pending = [] ∧ runIn env q n = runIn env q k) ∧
    (∀ (q : ScanRequest) (N : Nat), q.source.resolvable.encard ≤ N →
      Ends q ∧ (finished q).pending = [] ∧ (finished q).loads.length ≤ N + 1) ∧
    (∀ (s : Source) (N : Nat), s.resolvable.encard ≤ N → s.LoadsAtMost (N + 1)) ∧
    ∀ u : Universe, u.source.LoadsAtMost (u.names.length + 1) := by
  refine ⟨fun env q N hN => exists_drained hN q, fun q N hN => ?_,
    fun s N hN => Source.loadsAtMost_of_encard hN,
    fun u => Source.loadsAtMost_of_encard u.encard_resolvable_le⟩
  have he : Ends q := ends_of_finite (Set.finite_of_encard_le_coe hN)
  exact ⟨he, finished_drained he, length_loads_finished_le hN⟩

theorem Walk.drains_within_resolvable_vanishing :
    let env (n : Nat) : Source :=
      if n = 0 then .looped else Source.looped.loadedBy fun t => .error (.notFound t.name)
    let q : ScanRequest := ⟨.looped, ⟨"a.A"⟩, { recursive := true }, some (.everyNth 2), true⟩
    (resolvableIn env).encard ≤ (4 : Nat) ∧
      ∃ k ≤ 5, (runIn env q k).loads.length = k ∧ (runIn env q k).pending = [] := by
  intro env q
  have hsub : resolvableIn env ⊆ Source.looped.resolvable := by
    rintro t ⟨n, name, hname⟩
    cases n with
    | zero => exact ⟨name, hname⟩
    | succ n => exact ⟨name, hname⟩
  have hN : (resolvableIn env).encard ≤ (4 : Nat) :=
    (Set.encard_le_encard hsub).trans Source.looped.encard_resolvable_le
  obtain ⟨k, hk, hlen, -, hend⟩ := drains_within_resolvable.1 env q 4 hN
  exact ⟨hN, k, hk, hlen, (hend k (Nat.le_refl k)).1⟩

end RefScan
