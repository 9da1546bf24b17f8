import RefScan.Proofs.Scan.Distance
import RefScan.Proofs.Walk.Environment

/-!
# What a walk holds before each step

A walk keeps five collections: pending, visited and found types, the names it has resolved and the
verdicts it was given. Different parts of a step write to them, and `runIn_coherent` says how they
fit together before every step: whatever is pending was found and was never taken before, whatever
was found has a good verdict and a name that stands for it, and with a depth limit the pending
types are in the order of their depths. The source may answer otherwise at every step and the
exclusion by its earlier questions.
-/

namespace RefScan.Walk

def taken (env : Nat → Source) (q : ScanRequest) (n : Nat) : Option TypeName :=
  (runIn env q n).pending.head?.map Prod.fst

variable {env : Nat → Source} {q : ScanRequest} {w : Walk} {d m n : Nat} {t u : TypeName}

-- ---------------------------------------------------------------------------
-- Types taken
-- ---------------------------------------------------------------------------

theorem taken_eq_some_iff :
    taken env q n = some u ↔ ∃ depth rest, (runIn env q n).pending = (u, depth) :: rest := by
  unfold taken
  cases (runIn env q n).pending with
  | nil => simp
  | cons p rest =>
    obtain ⟨t, depth⟩ := p
    simp

theorem loads_runIn_succ (env : Nat → Source) (q : ScanRequest) (n : Nat) :
    (runIn env q (n + 1)).loads = (taken env q n).toList ++ (runIn env q n).loads := by
  unfold taken
  cases hp : (runIn env q n).pending with
  | nil =>
    rw [runIn, step_drained hp]
    rfl
  | cons p rest =>
    obtain ⟨u, depth⟩ := p
    obtain ⟨next, h⟩ := (invariant_runIn env q n).stepped hp
    rw [runIn_succ, h.loads]
    rfl

theorem mem_loads_runIn : u ∈ (runIn env q n).loads ↔ ∃ m < n, taken env q m = some u := by
  induction n with
  | zero => simp [runIn, start]
  | succ n ih =>
    rw [loads_runIn_succ, List.mem_append, Option.mem_toList, ih]
    constructor
    · rintro (h | ⟨m, hm, h⟩)
      · exact ⟨n, Nat.lt_succ_self n, h⟩
      · exact ⟨m, Nat.lt_succ_of_lt hm, h⟩
    · rintro ⟨m, hm, h⟩
      rcases Nat.lt_succ_iff_lt_or_eq.mp hm with hm | rfl
      · exact .inr ⟨m, hm, h⟩
      · exact .inl h

theorem root_mem_loads_runIn (hn : 0 < n) : q.root ∈ (runIn env q n).loads :=
  mem_loads_runIn.mpr ⟨0, hn, rfl⟩

theorem load_known_of_taken (hm : m < n) (h : taken env q m = some u) :
    (known env q n).load u = (env m).load u := by
  obtain ⟨depth, rest, hp⟩ := taken_eq_some_iff.mp h
  refine (recalls_known env q n).load hm ?_ ((invariant_runIn env q m).not_mem_loads hp)
  exact mem_loads_runIn.mpr ⟨m, Nat.lt_succ_self m, h⟩

-- ---------------------------------------------------------------------------
-- Pending types
-- ---------------------------------------------------------------------------

theorem Invariant.found_of_pending (hi : Invariant q w) (hroot : q.root ∈ w.loads)
    (ht : t ∈ w.pending.map Prod.fst) : t ∈ w.found := by
  rcases hi.seen.visited.mp (hi.visited (.inr ht)) with rfl | ⟨-, hfound⟩
  · exact absurd hroot (hi.not_mem_loads_of_pending ht)
  · exact hfound

theorem queue_run (hmax : q.options.maxDepth = some d) (n : Nat) :
    Queue d (run q n (start q)).pending := by
  refine (run_induction (P := fun w => Queue d w.pending) ?_ ?_ n).2
  · exact ⟨by simp [start], by simp [start]⟩
  · intro w w' unit depth rest next _ hq hp h
    exact h.queue hmax (hp ▸ hq)

theorem queue_runIn (env : Nat → Source) (hmax : q.options.maxDepth = some d) (n : Nat) :
    Queue d (runIn env q n).pending := by
  rw [runIn_eq_run]
  exact queue_run (q := q.asking (known env q n)) hmax n

-- ---------------------------------------------------------------------------
-- Found types
-- ---------------------------------------------------------------------------

theorem visited_runIn (env : Nat → Source) (hrec : q.options.recursive = true) (n : Nat) :
    (runIn env q n).visited = (runIn env q n).found.insert q.root := by
  refine Std.ExtTreeSet.ext_mem fun t => ?_
  rw [(invariant_runIn env q n).seen.visited, Std.ExtTreeSet.mem_insert,
    Std.LawfulEqCmp.compare_eq_iff_eq, @eq_comm _ t]
  exact or_congr_right (and_iff_right hrec)

theorem Memo.resolved_eq (hm : Memo q w) (hname : name ∈ w.resolved)
    (h : q.source.resolve name = .ok t) : w.resolved[name]? = some (some t) := by
  obtain ⟨answer, ha⟩ :=
    Option.isSome_iff_exists.mp (Std.ExtTreeMap.mem_iff_isSome_getElem?.mp hname)
  rw [ha, hm.resolved ha, h]
  rfl

/-- A found type goes back to a candidate in the bytes of a type that was taken. -/
theorem exists_candidate_of_found (ht : t ∈ (runIn env q n).found) :
    ∃ name, (runIn env q n).resolved[name]? = some (some t) ∧
      ∃ m < n, ∃ u bytes, taken env q m = some u ∧ (env m).load u = .ok bytes ∧
        name ∈ Candidates.ofBytes q.options.encoding bytes := by
  have hi := invariant_runIn env q n
  obtain ⟨-, u, hu, ⟨bytes, hload, name, hname, hresolve⟩, -⟩ := hi.found.mp ht
  obtain ⟨m, hm, htaken⟩ := mem_loads_runIn.mp hu
  have hnames : name ∈ (known env q (n + 1)).names q.options.encoding u := by
    simpa only [Source.names, ScanRequest.asking] using hload ▸ hname
  have hasked : name ∈ (runIn env q n).resolved :=
    (ledger_runIn env q n).resolved.mpr ⟨u, hu, hnames⟩
  refine ⟨name, hi.memo.resolved_eq hasked hresolve, m, hm, u, bytes, htaken, ?_, hname⟩
  rw [← load_known_of_taken (Nat.lt_succ_of_lt hm) htaken]
  exact hload

/-- Before each step of a recursive walk, the visited types are the found ones and the root, which
is not found itself. Once the root was taken, every pending type is found, pending once and was
not taken before. Every found type has the verdict that it is not excluded and is what a candidate
of some taken type was resolved to. With a depth limit the depths of the pending types are in
order, never two apart and within the limit. -/
theorem runIn_coherent (env : Nat → Source) (q : ScanRequest)
    (hrec : q.options.recursive = true) (n : Nat) :
    let w := runIn env q n
    (w.visited = w.found.insert q.root ∧ q.root ∉ w.found) ∧
    (0 < n → (w.pending.map Prod.fst).Nodup ∧
      ∀ t ∈ w.pending.map Prod.fst, t ∈ w.found ∧ ∀ m < n, taken env q m ≠ some t) ∧
    (∀ t ∈ w.found, w.verdicts[t]? = some false ∧
      ∃ name, w.resolved[name]? = some (some t) ∧
        ∃ m < n, ∃ u bytes, taken env q m = some u ∧ (env m).load u = .ok bytes ∧
          name ∈ Candidates.ofBytes q.options.encoding bytes) ∧
    ∀ d, q.options.maxDepth = some d →
      (w.pending.Pairwise fun a b => a.2 ≤ b.2 ∧ b.2 ≤ a.2 + 1) ∧ ∀ p ∈ w.pending, p.2 ≤ d := by
  intro w
  have hi := invariant_runIn env q n
  refine ⟨⟨visited_runIn env hrec n, fun hroot => hi.seen.found hroot rfl⟩, fun hn => ?_,
    fun t ht => ?_, fun d hmax => ?_⟩
  · refine ⟨hi.nodup_pending, fun t ht => ⟨hi.found_of_pending (root_mem_loads_runIn hn) ht, ?_⟩⟩
    intro m hm htaken
    exact hi.not_mem_loads_of_pending ht (mem_loads_runIn.mpr ⟨m, hm, htaken⟩)
  · obtain ⟨-, u, -, -, -, hverdict⟩ := hi.found.mp ht
    exact ⟨hverdict, exists_candidate_of_found ht⟩
  · have hqueue := queue_runIn env hmax n
    exact ⟨hqueue.ordered, hqueue.within⟩

/-- The loop after its third step, which came to nothing: no bytes load any more. The root was
referred to again, and the type that is left goes by a name that is not its own. -/
theorem runIn_coherent_vanishing :
    let env (n : Nat) : Source :=
      if n < 2 then .looped else Source.looped.loadedBy fun t => .error (.notFound t.name)
    let q : ScanRequest :=
      ⟨.looped, ⟨"a.A"⟩, { recursive := true, maxDepth := some 2 }, some (.everyNth 5), false⟩
    let w := runIn env q 3
    let last : TypeName := ⟨"a.C"⟩
    q.options.recursive = true ∧ w.pending = [(last, 2)] ∧ w.stats.abandoned = 1 ∧
      last ∈ w.found ∧ q.root ∉ w.found ∧ (∀ m < 3, taken env q m ≠ some last) ∧
      w.verdicts[last]? = some false ∧ (∃ name : String, w.resolved[name]? = some (some last)) ∧
      q.options.maxDepth = some 2 ∧ ∀ p ∈ w.pending, p.2 ≤ 2 := by
  intro env q w last
  have hpending : w.pending = [(last, 2)] := by decide +kernel
  have hmem : last ∈ w.pending.map Prod.fst := by simp [hpending]
  obtain ⟨⟨-, hroot⟩, hqueued, hfound, hdepths⟩ := runIn_coherent env q rfl 3
  obtain ⟨hlast, hnew⟩ := (hqueued (by decide)).2 last hmem
  obtain ⟨hverdict, name, hname, -⟩ := hfound last hlast
  exact ⟨rfl, hpending, by decide +kernel, hlast, hroot, hnew, hverdict, ⟨name, hname⟩, rfl,
    (hdepths 2 rfl).2⟩

end RefScan.Walk
