import Mathlib.Data.List.Nodup
import RefScan.Proofs.Scan.Reachable
import RefScan.Proofs.Steps

/-!
# A scan with a depth limit goes by shortest distance

With a depth limit the pending types are a queue. Its depths are in order and never two apart
(`Queue`), and each of them is the length of a shortest way from the root (`ByLevel`): whatever is
nearer than the head of the queue has been visited. So a scan finds the types up to one reference
beyond the limit and loads those up to the limit, nearest first
(`report_found_iff_distance`).
-/

namespace RefScan

namespace Walk

variable {q : ScanRequest} {w w' : Walk} {d : Nat}

-- ---------------------------------------------------------------------------
-- The queue
-- ---------------------------------------------------------------------------

/-- Depths in order, never two apart and within the limit. -/
structure Queue (d : Nat) (pending : List (TypeName × Nat)) : Prop where
  ordered : pending.Pairwise fun a b => a.2 ≤ b.2 ∧ b.2 ≤ a.2 + 1
  within : ∀ p ∈ pending, p.2 ≤ d

theorem Queue.head_le (h : Queue d ((unit, depth) :: rest)) :
    ∀ p ∈ (unit, depth) :: rest, depth ≤ p.2 ∧ p.2 ≤ depth + 1 := by
  intro p hp
  rcases List.mem_cons.mp hp with rfl | hp
  · exact ⟨Nat.le_refl _, Nat.le_succ _⟩
  · exact (List.pairwise_cons.mp h.ordered).1 p hp

theorem Stepped.pending_of_maxDepth (h : Stepped q unit depth rest next w w')
    (hmax : q.options.maxDepth = some d) : w'.pending = rest ++ next := by
  simp [h.pending, enqueue, ScanOptions.byLevel, hmax]

theorem Stepped.queue (h : Stepped q unit depth rest next w w')
    (hmax : q.options.maxDepth = some d) (hq : Queue d ((unit, depth) :: rest)) :
    Queue d w'.pending := by
  have hnext : ∀ p ∈ next, p.2 = depth + 1 ∧ depth + 1 ≤ d := by
    intro p hp
    obtain ⟨hd, he, -⟩ := h.mem_next.mp hp
    simp only [ScanOptions.expandsAt, hmax, Option.all_some, Bool.and_eq_true,
      decide_eq_true_eq] at he
    exact ⟨hd, he.2⟩
  rw [h.pending_of_maxDepth hmax]
  constructor
  · refine List.pairwise_append.mpr ⟨hq.ordered.of_cons, ?_, ?_⟩
    · refine List.pairwise_of_forall_mem_list fun a ha b hb => ?_
      have := hnext a ha
      have := hnext b hb
      omega
    · intro a ha b hb
      have := hq.head_le a (List.mem_cons_of_mem _ ha)
      have := hnext b hb
      omega
  · intro p hp
    rcases List.mem_append.mp hp with hp | hp
    · exact hq.within p (List.mem_cons_of_mem _ hp)
    · have := hnext p hp
      omega

-- ---------------------------------------------------------------------------
-- Distances
-- ---------------------------------------------------------------------------

structure ByLevel (r : TypeName → TypeName → Prop) (root : TypeName) (d : Nat) (w : Walk) :
    Prop where
  queue : Queue d w.pending
  pending : ∀ {t n}, (t, n) ∈ w.pending → IsDistance r root n t
  visited : ∀ {t}, t ∈ w.visited → ∃ n ≤ d + 1, IsDistance r root n t
  loads : ∀ {t}, t ∈ w.loads → ∃ n ≤ d, IsDistance r root n t
  covered : ∀ {t n}, t ∈ w.visited → IsDistance r root n t → n ≤ d →
    t ∈ w.loads ∨ t ∈ w.pending.map Prod.fst
  behind : ∀ {u m t n}, u ∈ w.loads → IsDistance r root m u → (t, n) ∈ w.pending → m ≤ n
  ordered : w.loads.Pairwise fun later earlier =>
    ∀ m n, IsDistance r root m earlier → IsDistance r root n later → m ≤ n

theorem byLevel_start (q : ScanRequest) (r : TypeName → TypeName → Prop) (d : Nat) :
    ByLevel r q.root d (start q) := by
  constructor
  case queue => exact ⟨by simp [start], by simp [start]⟩
  case pending =>
    intro t n hp
    simp only [start, List.mem_singleton, Prod.mk.injEq] at hp
    obtain ⟨rfl, rfl⟩ := hp
    exact .refl r q.root
  case visited =>
    intro t ht
    have ht : q.root = t := by simpa [start] using ht
    exact ⟨0, Nat.zero_le _, ht ▸ .refl r q.root⟩
  case covered =>
    intro t n ht _ _
    have ht : q.root = t := by simpa [start] using ht
    exact .inr (by simp [start, ht])
  all_goals simp [start]

/-- Whatever is not farther than all pending types has been visited. -/
theorem ByLevel.visited_of_near (h : ByLevel r root d w) (hroot : root ∈ w.visited)
    (hclosed : ∀ {u t}, u ∈ w.loads → r u t → t ∈ w.visited)
    (hfar : ∀ p ∈ w.pending, b ≤ p.2) (hb : b ≤ d + 1) (ht : IsDistance r root n t)
    (hn : n ≤ b) : t ∈ w.visited := by
  induction n generalizing t with
  | zero => exact ht.eq_of_zero ▸ hroot
  | succ n ih =>
    obtain ⟨u, hu, hr⟩ := ht.pred
    -- the type before it is nearer, so it is not pending, so it was loaded
    rcases h.covered (ih hu (by omega)) hu (by omega) with hl | hq
    · exact hclosed hl hr
    · obtain ⟨⟨u, k⟩, hp, rfl⟩ := List.mem_map.mp hq
      have hlabel := hu.unique (h.pending hp)
      have hle : b ≤ k := hfar _ hp
      omega

section
variable {r : TypeName → TypeName → Prop}

/-- A type that comes up new is one reference farther away than the type that refers to it. -/
theorem ByLevel.distance_of_new (h : ByLevel r q.root d w) (hi : Invariant q w)
    (hp : w.pending = (unit, depth) :: rest)
    (hclosed : ∀ {u t}, u ∈ w.loads → r u t → t ∈ w.visited) (hr : r unit t)
    (hnew : t ∉ w.visited) : IsDistance r q.root (depth + 1) t := by
  have hunit : IsDistance r q.root depth unit := h.pending (hp ▸ List.mem_cons_self)
  have hdepth : depth ≤ d := h.queue.within (unit, depth) (hp ▸ List.mem_cons_self)
  refine hunit.succ hr fun m hm => Nat.lt_of_not_le fun hle => hnew ?_
  have hfar : ∀ p ∈ w.pending, depth ≤ p.2 := by
    intro p hm
    rw [hp] at hm
    exact ((hp ▸ h.queue).head_le p hm).1
  exact h.visited_of_near (hi.seen.visited.mpr (.inl rfl)) hclosed hfar (by omega) hm hle

theorem ByLevel.of_stepped (h : ByLevel r q.root d w) (hi : Invariant q w)
    (hp : w.pending = (unit, depth) :: rest) (hs : Stepped q unit depth rest next w w')
    (hmax : q.options.maxDepth = some d)
    (hclosed : ∀ {u t}, u ∈ w.loads → r u t → t ∈ w.visited)
    (haccepts : ∀ {t}, Accepts q w' unit t → r unit t) : ByLevel r q.root d w' := by
  have hunit : IsDistance r q.root depth unit := h.pending (hp ▸ List.mem_cons_self)
  have hdepth : depth ≤ d := h.queue.within (unit, depth) (hp ▸ List.mem_cons_self)
  have hqueue : Queue d ((unit, depth) :: rest) := hp ▸ h.queue
  have hbehind {u m} (hu : u ∈ w.loads) (hm : IsDistance r q.root m u) : m ≤ depth :=
    h.behind hu hm (hp ▸ List.mem_cons_self)
  have hnew {t} (ha : Accepts q w' unit t) (ht : t ∉ w.visited) :
      IsDistance r q.root (depth + 1) t :=
    h.distance_of_new hi hp hclosed (haccepts ha) ht
  have hpending {p} : p ∈ w'.pending ↔ p ∈ rest ∨ p ∈ next := by
    rw [hs.pending_of_maxDepth hmax, List.mem_append]
  have hloads {u} : u ∈ w'.loads ↔ u = unit ∨ u ∈ w.loads := by
    rw [hs.loads, List.mem_cons]
  constructor
  case queue => exact hs.queue hmax hqueue
  case pending =>
    intro t n ht
    rcases hpending.mp ht with ht | ht
    · exact h.pending (hp ▸ List.mem_cons_of_mem _ ht)
    · obtain ⟨hn, -, ha, hv⟩ := hs.mem_next.mp ht
      have hn : n = depth + 1 := hn
      exact hn ▸ hnew ha hv
  case visited =>
    intro t ht
    by_cases hold : t ∈ w.visited
    · exact h.visited hold
    · obtain ⟨ha, -⟩ := (hs.visited_cases hi.seen ht).resolve_left hold
      exact ⟨depth + 1, by omega, hnew ha hold⟩
  case loads =>
    intro t ht
    rcases hloads.mp ht with rfl | ht
    · exact ⟨depth, hdepth, hunit⟩
    · exact h.loads ht
  case covered =>
    intro t n ht hd hn
    by_cases hold : t ∈ w.visited
    · exact hs.keeps hp (h.covered hold hd hn)
    · obtain ⟨ha, hrec⟩ := (hs.visited_cases hi.seen ht).resolve_left hold
      have hdist := hd.unique (hnew ha hold)
      have hexpands : q.options.expandsAt (depth + 1) = true := by
        simp only [ScanOptions.expandsAt, hrec, hmax, Option.all_some, Bool.true_and,
          decide_eq_true_eq]
        omega
      exact .inr (hs.mem_pending_of_new hexpands ha hold)
  case behind =>
    intro u m t n hu hm ht
    have hle : m ≤ depth := by
      rcases hloads.mp hu with rfl | hu
      · exact Nat.le_of_eq (hm.unique hunit)
      · exact hbehind hu hm
    rcases hpending.mp ht with ht | ht
    · exact Nat.le_trans hle (hqueue.head_le _ (List.mem_cons_of_mem _ ht)).1
    · obtain ⟨hn, -⟩ := hs.mem_next.mp ht
      have hn : n = depth + 1 := hn
      omega
  case ordered =>
    rw [hs.loads]
    refine List.pairwise_cons.mpr ⟨fun u hu m n hm hn => ?_, h.ordered⟩
    exact hn.unique hunit ▸ hbehind hu hm

end

theorem ends_of_maxDepth (hmax : q.options.maxDepth = some d) : Ends q :=
  ends_of_bounded fun _ => by rw [hmax, Option.isSome_some]

section
variable (hrec : q.options.recursive = true) (hmax : q.options.maxDepth = some d)
  {p : Option (TypeName → Bool)} (hp : q.exclusion = p.map .ofPredicate)
include hrec hmax hp

theorem byLevel_finished :
    ByLevel (q.source.RefersTo q.options.encoding fun t => p.any (· t)) q.root d (finished q) := by
  refine finished_induction (ends_of_maxDepth hmax) (byLevel_start q _ d) ?_
  intro w w' unit depth rest next hi hw hpend h
  refine hw.of_stepped hi hpend h hmax (fun hu hr => ?_) (fun ha => ?_)
  · exact hi.visited_of_refers hrec ((hi.refers_iff_of_predicate hp).mpr ⟨hu, hr⟩)
  · have hr := (hi.refers_step h).mpr (.inl ⟨rfl, ha⟩)
    exact (((hi.of_stepped hpend h).refers_iff_of_predicate hp).mp hr).2

theorem visited_finished_of_distance
    (ht : IsDistance (q.source.RefersTo q.options.encoding fun t => p.any (· t)) q.root n t)
    (hn : n ≤ d + 1) : t ∈ (finished q).visited := by
  have he := ends_of_maxDepth hmax
  have hi := finished_invariant he
  refine (byLevel_finished hrec hmax hp).visited_of_near (hi.seen.visited.mpr (.inl rfl))
    (fun hu hr => ?_) (by simp [finished_drained he]) (Nat.le_refl _) ht hn
  exact hi.visited_of_refers hrec ((hi.refers_iff_of_predicate hp).mpr ⟨hu, hr⟩)

theorem mem_found_finished_iff_distance :
    t ∈ (finished q).found ↔ t ≠ q.root ∧ ∃ n, 1 ≤ n ∧ n ≤ d + 1 ∧
      IsDistance (q.source.RefersTo q.options.encoding fun t => p.any (· t)) q.root n t := by
  have hi := finished_invariant (ends_of_maxDepth hmax)
  constructor
  · intro ht
    have hne := hi.seen.found ht
    have hv := hi.seen.visited.mpr (.inr ⟨hrec, ht⟩)
    obtain ⟨n, hn, hd⟩ := (byLevel_finished hrec hmax hp).visited hv
    exact ⟨hne, n, hd.pos_of_ne hne, hn, hd⟩
  · rintro ⟨hne, n, -, hn, hd⟩
    have hv := visited_finished_of_distance hrec hmax hp hd hn
    exact ((hi.seen.visited.mp hv).resolve_left hne).2

theorem mem_loads_finished_iff_distance :
    t ∈ (finished q).loads ↔ ∃ n ≤ d,
      IsDistance (q.source.RefersTo q.options.encoding fun t => p.any (· t)) q.root n t := by
  have h := byLevel_finished hrec hmax hp
  refine ⟨h.loads, fun ⟨n, hn, hd⟩ => ?_⟩
  have hv := visited_finished_of_distance hrec hmax hp hd (by omega)
  simpa [finished_drained (ends_of_maxDepth hmax)] using h.covered hv hd hn

end

-- ---------------------------------------------------------------------------
-- Scans of the root alone
-- ---------------------------------------------------------------------------

theorem accept_withOptions (q : ScanRequest) (o : ScanOptions) (unit : TypeName) (w : Walk)
    (names : List String) :
    accept { q with options := o } unit w names = accept q unit w names := by
  have hask : askAccept { q with options := o } unit w names = askAccept q unit w names := by
    induction names generalizing w with
    | nil => rfl
    | cons name names ih =>
      simp only [askAccept, ih]
      rfl
  rw [accept, accept, hask]
  rfl

theorem drained_of_not_expandsAt (h : q.options.expandsAt 1 = false) :
    (run q 1 (start q)).pending = [] := by
  have hp : (start q).pending = [(q.root, 0)] := rfl
  obtain ⟨next, hs⟩ := (invariant_start q).stepped hp
  have hnext : next = [] := by
    refine List.eq_nil_iff_forall_not_mem.mpr fun p hm => ?_
    have he := (hs.mem_next.mp hm).2.1
    simp [h] at he
  rw [run, run, hs.pending, hnext]
  simp [enqueue]

theorem finished_of_not_expandsAt (h : q.options.expandsAt 1 = false) :
    finished q = (start q).step q :=
  finished_eq_run (drained_of_not_expandsAt h)

theorem loads_finished_of_not_expandsAt (h : q.options.expandsAt 1 = false) :
    (finished q).loads = [q.root] := by
  have hp : (start q).pending = [(q.root, 0)] := rfl
  obtain ⟨next, hs⟩ := (invariant_start q).stepped hp
  rw [finished_of_not_expandsAt h, hs.loads]
  rfl

theorem expand_report (hm : Memo q w) (hs : Seen q w.visited w.found) (unit : TypeName)
    (depth : Nat) (bytes : Bytes) :
    ∃ ts w₁, accept q unit (w.marked unit)
        (Candidates.ofBytes q.options.encoding bytes).toList = (ts, w₁) ∧
      (w.expand q unit depth bytes).stats = w₁.stats ∧
      (w.expand q unit depth bytes).failure = w.failure ∧
      ∀ t, t ∈ (w.expand q unit depth bytes).found ↔ (t ∈ ts ∧ t ≠ q.root) ∨ t ∈ w.found := by
  have hm₀ : Memo q (w.marked unit) := ⟨hm.resolved, hm.verdicts, hm.questions, hm.nodup⟩
  obtain ⟨ts, w₁, hw₁, hl, -⟩ := accept_ok hm₀ unit
    (Candidates.ofBytes q.options.encoding bytes).toList
  obtain ⟨next, v, f, hw₂, -, hf, -⟩ := noteAll_ok (w := w₁)
    (hl.visited ▸ hl.found ▸ hs) unit depth ts
  rw [expand_eq hw₁ hw₂]
  refine ⟨ts, w₁, hw₁, rfl, hl.failure, fun t => ?_⟩
  rw [hf, hl.found]
  rfl

theorem step_start_withOptions (q : ScanRequest) {o : ScanOptions}
    (ho : o.encoding = q.options.encoding) :
    ((start q).step { q with options := o }).found = ((start q).step q).found ∧
      ((start q).step { q with options := o }).stats = ((start q).step q).stats ∧
      ((start q).step { q with options := o }).failure = ((start q).step q).failure := by
  have hi := invariant_start q
  have hi' := invariant_start { q with options := o }
  have hp : (start q).pending = [(q.root, 0)] := rfl
  cases hload : q.source.load q.root with
  | error cause =>
    rw [step_of_load_error hp hload, step_of_load_error (q := { q with options := o }) hp hload]
    exact ⟨rfl, rfl, rfl⟩
  | ok bytes =>
    let opened := (start q).opened q.root []
    obtain ⟨ts, w₁, ha, hstats, hfail, hfound⟩ := expand_report (q := q) (w := opened)
      ⟨hi.memo.resolved, hi.memo.verdicts, hi.memo.questions, hi.memo.nodup⟩ hi.seen q.root 0 bytes
    obtain ⟨ts', w₁', ha', hstats', hfail', hfound'⟩ :=
      expand_report (q := { q with options := o }) (w := opened)
        ⟨hi'.memo.resolved, hi'.memo.verdicts, hi'.memo.questions, hi'.memo.nodup⟩ hi'.seen
        q.root 0 bytes
    rw [accept_withOptions, ho, ha, Prod.mk.injEq] at ha'
    obtain ⟨rfl, rfl⟩ := ha'
    rw [step_of_load hp hload, step_of_load (q := { q with options := o }) hp hload]
    refine ⟨Std.ExtTreeSet.ext_mem fun t => ?_, hstats'.trans hstats.symm, hfail'.trans hfail.symm⟩
    rw [hfound', hfound]

end Walk

namespace Source

theorem report_not_recursive (s : Source) (root : TypeName) (encoding : Encoding)
    (maxDepth : Option Nat) (exclusion : Option Exclusion) :
    (s.report (some root) { encoding, recursive := false, maxDepth } exclusion).result =
      (s.report (some root) { encoding, recursive := true, maxDepth := some 0 }
        exclusion).result := by
  let deep : ScanRequest :=
    ⟨s, root, { encoding, recursive := true, maxDepth := some 0 }, exclusion, false⟩
  have hdeep : Walk.finished deep = (Walk.start deep).step deep :=
    Walk.finished_of_not_expandsAt rfl
  let flat : ScanOptions := { encoding, recursive := false, maxDepth }
  have hflat : Walk.finished ⟨s, root, flat, exclusion, false⟩ =
      (Walk.start deep).step ⟨s, root, flat, exclusion, false⟩ :=
    Walk.finished_of_not_expandsAt rfl
  obtain ⟨hfound, hstats, hfailure⟩ := Walk.step_start_withOptions deep (o := flat) rfl
  simp only [report, scanWith, Walk.outcome]
  rw [hflat, hdeep, hfound, hstats, hfailure]

/-- A recursive scan with depth limit `d` ends, over whatever source. It finds the types whose
distance from the root is at most `d + 1` and loads those at distance `d` or less, each once and the
nearest first. A scan that is not recursive comes to the same as one with limit `0`. -/
theorem report_found_iff_distance (s : Source) (root : TypeName) (encoding : Encoding)
    (p : Option (TypeName → Bool)) (d : Nat) {bytes : Bytes} (h : s.load root = .ok bytes) :
    let refers := s.RefersTo encoding fun t => p.any (· t)
    let within (n : Nat) : ScanOptions := { encoding, recursive := true, maxDepth := some n }
    let scan := s.report (some root) (within d) (p.map .ofPredicate)
    s.Ends (some root) (within d) (p.map .ofPredicate) ∧
    (∃ r, scan.result = .ok r ∧ ∀ t, t ∈ r.found ↔
      t ≠ root ∧ ∃ n, 1 ≤ n ∧ n ≤ d + 1 ∧ IsDistance refers root n t) ∧
    (∀ t, t ∈ scan.trace.loads ↔
      t = root ∨ ∃ n, 1 ≤ n ∧ n ≤ d ∧ IsDistance refers root n t) ∧
    scan.trace.loads.Nodup ∧
    (scan.trace.loads.Pairwise fun a b =>
      ∀ m n, IsDistance refers root m a → IsDistance refers root n b → m ≤ n) ∧
    ∀ maxDepth exclusion,
      let flat : ScanOptions := { encoding, recursive := false, maxDepth }
      s.Ends (some root) flat exclusion ∧ s.Ends (some root) (within 0) exclusion ∧
      (s.report (some root) flat exclusion).result =
        (s.report (some root) (within 0) exclusion).result := by
  intro refers within scan
  let q : ScanRequest := ⟨s, root, within d, p.map .ofPredicate, false⟩
  have he : Walk.Ends q := Walk.ends_of_maxDepth rfl
  have hbounded (n : Nat) : (within n).Bounded := fun _ => rfl
  have hloads : scan.trace.loads = (Walk.finished q).loads.reverse := rfl
  have hlevel : Walk.ByLevel refers root d (Walk.finished q) :=
    Walk.byLevel_finished (q := q) rfl rfl rfl
  have hends : s.Ends (some root) (within d) (p.map .ofPredicate) := ends_of_bounded (hbounded d)
  refine ⟨hends, ⟨_, scanWith_of_load hends h _ _, fun t => ?_⟩, fun t => ?_, ?_, ?_, ?_⟩
  · exact Walk.mem_found_finished_iff_distance (q := q) rfl rfl rfl
  · rw [hloads, List.mem_reverse, Walk.mem_loads_finished_iff_distance (q := q) rfl rfl rfl]
    constructor
    · rintro ⟨n, hn, hd⟩
      by_cases ht : t = root
      · exact .inl ht
      · exact .inr ⟨n, hd.pos_of_ne ht, hn, hd⟩
    · rintro (rfl | ⟨n, -, hn, hd⟩)
      · exact ⟨0, Nat.zero_le d, .refl _ _⟩
      · exact ⟨n, hn, hd⟩
  · rw [hloads, List.nodup_reverse]
    exact (Walk.finished_invariant he).nodup_loads
  · rw [hloads, List.pairwise_reverse]
    exact hlevel.ordered
  · intro maxDepth exclusion flat
    have hflat : flat.Bounded := fun h => by cases h
    exact ⟨ends_of_bounded hflat, ends_of_bounded (hbounded 0),
      s.report_not_recursive root encoding maxDepth exclusion⟩

/-- The types of the loop, and every name for that of a type. -/
def boundless : Source := { looped with resolve name := .ok ⟨name⟩ }

theorem boundless.infinite_resolvable : boundless.resolvable.Infinite :=
  Set.infinite_of_injective_forall_mem (f := TypeName.mk) (fun _ _ => TypeName.mk.inj)
    fun name => ⟨name, rfl⟩

theorem boundless.mentions_first : boundless.Mentions .utf8 ⟨"a.A"⟩ t ↔ t = ⟨"a.B"⟩ := by
  rw [mentions_iff_of_typeNames ["a.B"] rfl (by decide)]
  simp [boundless, @eq_comm _ t]

theorem boundless.mentions_second :
    boundless.Mentions .utf8 ⟨"a.B"⟩ t ↔ t = ⟨"a.A"⟩ ∨ t = ⟨"a.D"⟩ ∨ t = ⟨"x.Y"⟩ := by
  rw [mentions_iff_of_typeNames ["a.A", "a.D", "x.Y"] rfl (by decide)]
  simp [boundless, @eq_comm _ t]

theorem boundless.distance_third :
    IsDistance (boundless.RefersTo .utf8 (looped.rejects ·)) ⟨"a.A"⟩ 2 ⟨"x.Y"⟩ := by
  have hsecond : boundless.RefersTo .utf8 (looped.rejects ·) ⟨"a.A"⟩ ⟨"a.B"⟩ :=
    ⟨boundless.mentions_first.mpr rfl, by decide, by decide⟩
  have hthird : boundless.RefersTo .utf8 (looped.rejects ·) ⟨"a.B"⟩ ⟨"x.Y"⟩ :=
    ⟨boundless.mentions_second.mpr (.inr (.inr rfl)), by decide, by decide⟩
  refine ⟨.succ (.succ .zero hsecond) hthird, fun m hm => ?_⟩
  obtain ⟨k, hk, hd⟩ := IsDistance.exists_le hm
  rcases k with _ | _ | k
  · exact absurd hd.eq_of_zero (by decide)
  · obtain ⟨u, hu, hr⟩ := hd.pred
    rw [hu.eq_of_zero] at hr
    exact absurd (boundless.mentions_first.mp hr.1) (by decide)
  · omega

/-- With limit `1` a type two references away is found and not loaded, and it does not matter that
names resolve to infinitely many types. -/
theorem report_found_boundless_within_one :
    boundless.resolvable.Infinite ∧ boundless.load ⟨"a.A"⟩ = .ok (utf8Bytes "a/B") ∧
    let options : ScanOptions := { encoding := .utf8, recursive := true, maxDepth := some 1 }
    let exclusion : Option Exclusion := some (.ofPredicate looped.rejects)
    let scan := boundless.report (some ⟨"a.A"⟩) options exclusion
    boundless.Ends (some ⟨"a.A"⟩) options exclusion ∧
    (∃ r, scan.result = .ok r ∧ ⟨"x.Y"⟩ ∈ r.found) ∧ ⟨"x.Y"⟩ ∉ scan.trace.loads := by
  obtain ⟨he, ⟨r, hr, hfound⟩, hloads, -⟩ := report_found_iff_distance boundless ⟨"a.A"⟩ .utf8
    (some looped.rejects) 1 rfl
  refine ⟨boundless.infinite_resolvable, rfl, he, ⟨r, hr, (hfound _).mpr ⟨by decide, 2, ?_⟩⟩,
    fun h => ?_⟩
  · exact ⟨by decide, by decide, boundless.distance_third⟩
  · rcases (hloads _).mp h with heq | ⟨n, -, hn, hd⟩
    · exact absurd heq (by decide)
    · have := hd.unique boundless.distance_third
      omega

end Source

end RefScan
