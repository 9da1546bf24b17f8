import Mathlib.Logic.Relation
import RefScan.Proofs.Walk.Step

/-!
# What holds all along a walk

`Invariant` ties the found types, the memory and the pending types to the types that were loaded
so far and to what these refer to (`Refers`). It holds at the start and after every step, whatever
the options and however the exclusion answers. If the walk comes to an end (`Ends`), it holds then,
too, and so does every other property that one step keeps (`finished_induction`).
-/

namespace RefScan.Walk

def Refers (q : ScanRequest) (w : Walk) (u t : TypeName) : Prop := u ∈ w.loads ∧ Accepts q w u t

structure Invariant (q : ScanRequest) (w : Walk) : Prop where
  memo : Memo q w
  seen : Seen q w.visited w.found
  /-- Verdicts are there for what loaded types mention, and for nothing else. -/
  asked : ∀ {t}, t ∈ w.verdicts ↔
    ∃ u ∈ w.loads, q.source.Mentions q.options.encoding u t ∧ t ≠ u
  found : ∀ {t}, t ∈ w.found ↔ t ≠ q.root ∧ ∃ u, Refers q w u t
  reachable : ∀ {t}, t ∈ w.found → Relation.TransGen (Refers q w) q.root t
  nodup : (w.loads ++ w.pending.map Prod.fst).Nodup
  visited : ∀ {t}, t ∈ w.loads ∨ t ∈ w.pending.map Prod.fst → t ∈ w.visited
  failure : ∀ {e}, w.failure = some e ↔
    q.root ∈ w.loads ∧ ∃ cause, q.source.load q.root = .error cause ∧ e = .load q.root.name cause
  /-- The root comes first. -/
  fresh : q.root ∈ w.loads ∨ w = start q

variable {q : ScanRequest} {w w' : Walk}

theorem invariant_start (q : ScanRequest) : Invariant q (start q) := by
  constructor
  case memo => exact ⟨by simp [start], by simp [start], by simp [start], List.nodup_nil⟩
  case seen => exact ⟨by simp [start], by simp [start, @eq_comm _ q.root]⟩
  case fresh => exact .inr rfl
  all_goals simp [start, Refers, @eq_comm _ q.root]

-- ---------------------------------------------------------------------------
-- One step
-- ---------------------------------------------------------------------------

theorem enqueue_perm (q : ScanRequest) (next rest : List (TypeName × Nat)) :
    (enqueue q next rest).Perm (next ++ rest) := by
  unfold enqueue
  split
  · exact List.perm_append_comm
  · exact .refl _

theorem Stepped.verdict_eq (h : Stepped q unit depth rest next w w') (ht : t ∈ w.verdicts) :
    w'.verdicts[t]? = w.verdicts[t]? := by
  obtain ⟨v, hv⟩ := exists_verdict ht
  rw [hv, h.verdicts hv]

theorem Invariant.accepts_iff (hi : Invariant q w) (h : Stepped q unit depth rest next w w')
    (hu : u ∈ w.loads) : Accepts q w' u t ↔ Accepts q w u t := by
  unfold Accepts
  refine and_congr_right fun hm => and_congr_right fun hne => ?_
  -- the verdict was asked for when `u` was loaded, and it stays
  rw [h.verdict_eq (hi.asked.mpr ⟨u, hu, hm, hne⟩)]

theorem Invariant.nodup_loads (hi : Invariant q w) : w.loads.Nodup :=
  (List.nodup_append.mp hi.nodup).1

theorem Invariant.nodup_pending (hi : Invariant q w) : (w.pending.map Prod.fst).Nodup :=
  (List.nodup_append.mp hi.nodup).2.1

theorem Invariant.not_mem_loads_of_pending (hi : Invariant q w)
    (ht : t ∈ w.pending.map Prod.fst) : t ∉ w.loads :=
  fun hl => (List.nodup_append.mp hi.nodup).2.2 t hl t ht rfl

theorem Invariant.not_mem_loads (hi : Invariant q w) (hp : w.pending = (unit, depth) :: rest) :
    unit ∉ w.loads :=
  hi.not_mem_loads_of_pending (by simp [hp])

theorem Invariant.root_alone (hi : Invariant q w) (hp : w.pending = (q.root, depth) :: rest) :
    rest = [] ∧ w.failure = none := by
  have hw := hi.fresh.resolve_left (hi.not_mem_loads hp)
  subst hw
  simp only [start, List.cons.injEq] at hp
  exact ⟨hp.2.symm, rfl⟩

theorem Invariant.stepped (hi : Invariant q w) (hp : w.pending = (unit, depth) :: rest) :
    ∃ next, Stepped q unit depth rest next w (w.step q) :=
  step_ok hi.memo hi.seen hp fun heq => hi.root_alone (heq ▸ hp)

theorem Invariant.refers_step (hi : Invariant q w) (h : Stepped q unit depth rest next w w') :
    Refers q w' u t ↔ (u = unit ∧ Accepts q w' unit t) ∨ Refers q w u t := by
  unfold Refers
  rw [h.loads, List.mem_cons]
  constructor
  · rintro ⟨rfl | hu, ha⟩
    · exact .inl ⟨rfl, ha⟩
    · exact .inr ⟨hu, (hi.accepts_iff h hu).mp ha⟩
  · rintro (⟨rfl, ha⟩ | ⟨hu, ha⟩)
    · exact ⟨.inl rfl, ha⟩
    · exact ⟨.inr hu, (hi.accepts_iff h hu).mpr ha⟩

theorem Invariant.found_step (hi : Invariant q w) (h : Stepped q unit depth rest next w w') :
    t ∈ w'.found ↔ t ≠ q.root ∧ ∃ u, Refers q w' u t := by
  rw [h.found, hi.found]
  constructor
  · rintro (⟨ha, hne⟩ | ⟨hne, u, hu⟩)
    · exact ⟨hne, unit, (hi.refers_step h).mpr (.inl ⟨rfl, ha⟩)⟩
    · exact ⟨hne, u, (hi.refers_step h).mpr (.inr hu)⟩
  · rintro ⟨hne, u, hu⟩
    rcases (hi.refers_step h).mp hu with ⟨-, ha⟩ | hu
    · exact .inl ⟨ha, hne⟩
    · exact .inr ⟨hne, u, hu⟩

theorem Invariant.asked_step (hi : Invariant q w) (h : Stepped q unit depth rest next w w') :
    t ∈ w'.verdicts ↔ ∃ u ∈ w'.loads, q.source.Mentions q.options.encoding u t ∧ t ≠ u := by
  rw [h.asked, h.loads, hi.asked]
  simp only [List.mem_cons, exists_eq_or_imp]

theorem Invariant.reachable_step (hi : Invariant q w) (h : Stepped q unit depth rest next w w')
    (hunit : unit ∈ w.visited) (ht : t ∈ w'.found) :
    Relation.TransGen (Refers q w') q.root t := by
  have hmono {x : TypeName} (hx : x ∈ w.found) : Relation.TransGen (Refers q w') q.root x :=
    Relation.TransGen.mono (fun _ _ hr => (hi.refers_step h).mpr (.inr hr)) _ _ (hi.reachable hx)
  rcases h.found.mp ht with ⟨ha, -⟩ | ht
  · have hr : Refers q w' unit t := (hi.refers_step h).mpr (.inl ⟨rfl, ha⟩)
    rcases hi.seen.visited.mp hunit with rfl | ⟨-, hu⟩
    · exact .single hr
    · exact .tail (hmono hu) hr
  · exact hmono ht

theorem Stepped.map_pending (h : Stepped q unit depth rest next w w') :
    (w'.pending.map Prod.fst).Perm (next.map Prod.fst ++ rest.map Prod.fst) := by
  rw [h.pending, ← List.map_append]
  exact (enqueue_perm q next rest).map _

theorem Invariant.nodup_step (hi : Invariant q w) (hp : w.pending = (unit, depth) :: rest)
    (h : Stepped q unit depth rest next w w') :
    (w'.loads ++ w'.pending.map Prod.fst).Nodup := by
  have hperm : (w'.loads ++ w'.pending.map Prod.fst).Perm
      (next.map Prod.fst ++ (w.loads ++ w.pending.map Prod.fst)) := by
    rw [h.loads, hp, List.map_cons, List.cons_append]
    calc unit :: (w.loads ++ w'.pending.map Prod.fst)
      _ |>.Perm (unit :: (w.loads ++ (next.map Prod.fst ++ rest.map Prod.fst))) :=
        (h.map_pending.append_left w.loads).cons unit
      _ |>.Perm (unit :: (next.map Prod.fst ++ (w.loads ++ rest.map Prod.fst))) :=
        (List.perm_append_comm_assoc _ _ _).cons unit
      _ |>.Perm (next.map Prod.fst ++ unit :: (w.loads ++ rest.map Prod.fst)) :=
        List.perm_middle.symm
      _ |>.Perm (next.map Prod.fst ++ (w.loads ++ unit :: rest.map Prod.fst)) :=
        List.perm_middle.symm.append_left _
  rw [hperm.nodup_iff, List.nodup_append]
  refine ⟨h.nodup, hi.nodup, ?_⟩
  rintro t ht x hx rfl
  obtain ⟨p, hp, rfl⟩ := List.mem_map.mp ht
  exact (h.mem_next.mp hp).2.2.2 (hi.visited (List.mem_append.mp hx))

theorem Invariant.visited_mono (hi : Invariant q w) (h : Stepped q unit depth rest next w w')
    (ht : t ∈ w.visited) : t ∈ w'.visited := by
  refine h.seen.visited.mpr ((hi.seen.visited.mp ht).imp_right fun ⟨hrec, hf⟩ => ?_)
  exact ⟨hrec, h.found.mpr (.inr hf)⟩

theorem Invariant.visited_step (hi : Invariant q w) (hp : w.pending = (unit, depth) :: rest)
    (h : Stepped q unit depth rest next w w')
    (ht : t ∈ w'.loads ∨ t ∈ w'.pending.map Prod.fst) : t ∈ w'.visited := by
  rw [h.loads, h.map_pending.mem_iff, List.mem_append, List.mem_cons] at ht
  rcases ht with (rfl | ht) | ht | ht
  · exact hi.visited_mono h (hi.visited (.inr (by simp [hp])))
  · exact hi.visited_mono h (hi.visited (.inl ht))
  · obtain ⟨p, hn, rfl⟩ := List.mem_map.mp ht
    obtain ⟨-, he, ha, hv⟩ := h.mem_next.mp hn
    have hrec : q.options.recursive = true := (Bool.and_eq_true_iff.mp he).1
    have hne : p.1 ≠ q.root := fun heq => hv (hi.seen.visited.mpr (.inl heq))
    exact h.seen.visited.mpr (.inr ⟨hrec, h.found.mpr (.inl ⟨ha, hne⟩)⟩)
  · exact hi.visited_mono h (hi.visited (.inr (by simp [hp, ht])))

theorem Invariant.failure_step (hi : Invariant q w) (h : Stepped q unit depth rest next w w') :
    w'.failure = some e ↔ q.root ∈ w'.loads ∧
      ∃ cause, q.source.load q.root = .error cause ∧ e = .load q.root.name cause := by
  rw [h.failure, hi.failure, h.loads, List.mem_cons]
  constructor
  · rintro (⟨hr, hc⟩ | ⟨rfl, hc⟩)
    · exact ⟨.inr hr, hc⟩
    · exact ⟨.inl rfl, hc⟩
  · rintro ⟨heq | hr, hc⟩
    · exact .inr ⟨heq.symm, heq ▸ hc⟩
    · exact .inl ⟨hr, hc⟩

theorem Invariant.of_stepped (hi : Invariant q w) (hp : w.pending = (unit, depth) :: rest)
    (h : Stepped q unit depth rest next w w') : Invariant q w' := by
  have hunit : unit ∈ w.visited := hi.visited (.inr (by simp [hp]))
  constructor
  case memo => exact h.memo
  case seen => exact h.seen
  case asked => exact hi.asked_step h
  case found => exact hi.found_step h
  case reachable => exact hi.reachable_step h hunit
  case nodup => exact hi.nodup_step hp h
  case visited => exact hi.visited_step hp h
  case failure => exact hi.failure_step h
  case fresh =>
    rw [h.loads]
    rcases hi.fresh with hr | rfl
    · exact .inl (List.mem_cons_of_mem _ hr)
    · simp only [start, List.cons.injEq, Prod.mk.injEq] at hp
      exact .inl (hp.1.1 ▸ List.mem_cons_self)

-- ---------------------------------------------------------------------------
-- Whole walks
-- ---------------------------------------------------------------------------

/-- A property of the start that the steps keep holds after any number of them. The steps may be
taken to be those of a walk with the invariant. -/
theorem run_step_induction {P : Walk → Prop} (hstart : P (start q))
    (hstep : ∀ {w unit depth rest}, Invariant q w → P w → w.pending = (unit, depth) :: rest →
      P (w.step q)) (n : Nat) :
    Invariant q (run q n (start q)) ∧ P (run q n (start q)) := by
  suffices h : ∀ w, Invariant q w ∧ P w → Invariant q (run q n w) ∧ P (run q n w) from
    h _ ⟨invariant_start q, hstart⟩
  induction n with
  | zero => exact fun w hw => hw
  | succ n ih =>
    intro w ⟨hi, hw⟩
    refine ih _ ?_
    cases hp : w.pending with
    | nil =>
      rw [step_drained hp]
      exact ⟨hi, hw⟩
    | cons p rest =>
      obtain ⟨next, h⟩ := hi.stepped hp
      exact ⟨hi.of_stepped hp h, hstep hi hw hp⟩

theorem run_induction {P : Walk → Prop} (hstart : P (start q))
    (hstep : ∀ {w w' unit depth rest next}, Invariant q w → P w →
      w.pending = (unit, depth) :: rest → Stepped q unit depth rest next w w' → P w') (n : Nat) :
    Invariant q (run q n (start q)) ∧ P (run q n (start q)) := by
  refine run_step_induction hstart (fun hi hw hp => ?_) n
  obtain ⟨next, h⟩ := hi.stepped hp
  exact hstep hi hw hp h

theorem run_invariant (q : ScanRequest) (n : Nat) : Invariant q (run q n (start q)) :=
  (run_induction (P := fun _ => True) trivial (fun _ _ _ _ => trivial) n).1

theorem run_succ (q : ScanRequest) (n : Nat) (w : Walk) :
    run q (n + 1) w = (run q n w).step q := by
  induction n generalizing w with
  | zero => rfl
  | succ n ih => rw [run, ih, run]

theorem run_drained (h : w.pending = []) (n : Nat) : run q n w = w := by
  induction n with
  | zero => rfl
  | succ n ih => rw [run, step_drained h, ih]

theorem run_length (hi : Invariant q w) (n : Nat) :
    (run q n w).pending = [] ∨ (run q n w).loads.length = w.loads.length + n := by
  induction n generalizing w with
  | zero => exact .inr rfl
  | succ n ih =>
    cases hp : w.pending with
    | nil =>
      rw [run_drained hp]
      exact .inl hp
    | cons p rest =>
      obtain ⟨next, h⟩ := hi.stepped hp
      have hlen : (w.step q).loads.length = w.loads.length + 1 := by
        rw [h.loads, List.length_cons]
      rcases ih (hi.of_stepped hp h) with hd | hl
      · exact .inl hd
      · exact .inr (by rw [run, hl, hlen]; omega)

theorem root_mem_loads_run (q : ScanRequest) (n : Nat) :
    q.root ∈ (run q (n + 1) (start q)).loads := by
  refine (run_invariant q (n + 1)).fresh.resolve_right fun heq => ?_
  rcases run_length (invariant_start q) (n + 1) with hd | hl
  · rw [heq] at hd
    simp [start] at hd
  · rw [heq] at hl
    omega

/-- Only the first step can fail, and only for want of the root's bytes. -/
theorem run_failure (q : ScanRequest) (n : Nat) :
    (run q (n + 1) (start q)).failure = some e ↔
      ∃ cause, q.source.load q.root = .error cause ∧ e = .load q.root.name cause := by
  rw [(run_invariant q (n + 1)).failure]
  exact and_iff_right (root_mem_loads_run q n)

-- ---------------------------------------------------------------------------
-- Walks that come to an end
-- ---------------------------------------------------------------------------

def Ends (q : ScanRequest) : Prop := ∃ n, (run q n (start q)).pending = []

theorem finish_eq_run (h : (run q n w).pending = []) : finish q w = run q n w := by
  induction n generalizing w with
  | zero =>
    have h : w.pending = [] := h
    rw [finish, h, run]
  | succ n ih =>
    cases hp : w.pending with
    | nil => rw [finish, hp, run_drained hp]
    | cons p rest =>
      rw [finish, hp, run]
      exact ih h

theorem finished_eq_run (h : (run q n (start q)).pending = []) :
    finished q = run q n (start q) :=
  finish_eq_run h

theorem Ends.exists_run (he : Ends q) : ∃ n, finished q = run q (n + 1) (start q) := by
  obtain ⟨n, hn⟩ := he
  refine ⟨n, (finished_eq_run hn).trans ?_⟩
  rw [run_succ, step_drained hn]

section
variable (he : Ends q)
include he

theorem finished_invariant : Invariant q (finished q) := by
  obtain ⟨n, hn⟩ := he.exists_run
  exact hn ▸ run_invariant q _

theorem finished_drained : (finished q).pending = [] := by
  obtain ⟨n, hn⟩ := he
  exact finished_eq_run hn ▸ hn

theorem finished_induction {P : Walk → Prop} (hstart : P (start q))
    (hstep : ∀ {w w' unit depth rest next}, Invariant q w → P w →
      w.pending = (unit, depth) :: rest → Stepped q unit depth rest next w w' → P w') :
    P (finished q) := by
  obtain ⟨n, hn⟩ := he.exists_run
  exact hn ▸ (run_induction hstart hstep _).2

theorem root_mem_loads_finished : q.root ∈ (finished q).loads := by
  obtain ⟨n, hn⟩ := he.exists_run
  exact hn ▸ root_mem_loads_run q n

theorem finished_failure :
    (finished q).failure = some e ↔
      ∃ cause, q.source.load q.root = .error cause ∧ e = .load q.root.name cause := by
  obtain ⟨n, hn⟩ := he.exists_run
  exact hn ▸ run_failure q n

theorem finished_failure_congr {q' : ScanRequest} (he' : Ends q') (hs : q'.source = q.source)
    (hr : q'.root = q.root) : (finished q').failure = (finished q).failure := by
  refine Option.ext fun e => ?_
  rw [finished_failure he', finished_failure he, hs, hr]

theorem finished_failure_of_load (h : q.source.load q.root = .ok bytes) :
    (finished q).failure = none := by
  refine Option.eq_none_iff_forall_ne_some.mpr fun e hfailure => ?_
  obtain ⟨cause, hc, -⟩ := (finished_failure he).mp hfailure
  simp [h] at hc

theorem loads_root_of_failure_none (h : (finished q).failure = none) :
    q.source.Loads q.root := by
  cases hload : q.source.load q.root with
  | ok bytes => exact ⟨bytes, hload⟩
  | error cause => simp [(finished_failure he).mpr ⟨cause, hload, rfl⟩] at h

end

end RefScan.Walk
