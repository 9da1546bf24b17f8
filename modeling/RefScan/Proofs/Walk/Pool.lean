import RefScan.Proofs.Steps
import RefScan.Proofs.Walk.Invariant
import RefScan.Proofs.Walk.Record

/-!
# Scans that take turns

Several scans share a service, which may change by every question it gets; whose turn it is next is
open. As long as the answers do not change, it does not matter. A scan that is over has come to what
its walk comes to by itself (`Sound`), even if others never end. If all scans end, a turn takes one
question off those that are left and changes no result (`Settles`), so all orders of turns are
equally long and have the same results (`Delivers`).
-/

namespace RefScan

namespace Walk

def resume (q : ScanRequest) : Asking Walk → Asking Walk
  | .done w => w.askStep q
  | .ask r next => .ask r next

/-- Asks `rs` before it is over with the walk `w`. -/
inductive Comes (answer : (r : Request) → r.Answer) (q : ScanRequest) :
    Asking Walk → List Request → Walk → Prop
  | drained {w : Walk} (h : w.pending = []) : Comes answer q (.done w) [] w
  | ask {r : Request} {next : r.Answer → Asking Walk} {rs : List Request} {w : Walk}
    (h : Comes answer q (resume q (next (answer r))) rs w) :
    Comes answer q (.ask r next) (r :: rs) w

variable {answer : (r : Request) → r.Answer} {q : ScanRequest} {m : Asking Walk} {w w' : Walk}

theorem askStep_drained (h : w.pending = []) : w.askStep q = .done w := by
  simp only [askStep, h]
  rfl

theorem pending_of_askStep_done (h : w.askStep q = .done w') : w.pending = [] ∧ w' = w := by
  cases hp : w.pending with
  | nil =>
    rw [askStep_drained hp] at h
    cases h
    exact ⟨rfl, rfl⟩
  | cons p rest =>
    simp only [askStep, hp] at h
    cases h

theorem resume_askStep (q : ScanRequest) (w : Walk) : resume q (w.askStep q) = w.askStep q := by
  cases hm : w.askStep q with
  | done w' =>
    obtain ⟨hp, rfl⟩ := pending_of_askStep_done hm
    exact hm
  | ask r next => rfl

theorem pending_of_resume_done (h : resume q m = .done w) : w.pending = [] := by
  cases m with
  | done w₀ =>
    obtain ⟨hp, rfl⟩ := pending_of_askStep_done h
    exact hp
  | ask r next => cases h

namespace Comes

theorem of_eval (h : Comes answer q ((m.eval answer).askStep q) rs w) :
    Comes answer q (resume q m) (m.requests answer ++ rs) w := by
  induction m with
  | done w₀ => exact h
  | ask r next ih => exact .ask (ih (answer r) h)

/-- However far a step has come, what is left of the walk are its end and more steps. -/
theorem exists_run (h : Comes q.answers q m' rs w) (hm : resume q m = m') :
    ∃ n, run q n (m.eval q.answers) = w ∧ w.pending = [] := by
  induction h generalizing m with
  | drained hp =>
    cases m with
    | done w₀ =>
      obtain ⟨-, rfl⟩ := pending_of_askStep_done hm
      exact ⟨0, rfl, hp⟩
    | ask r next => cases hm
  | @ask r next rs w h ih =>
    obtain ⟨n, hn, hp⟩ := ih (m := next (q.answers r)) rfl
    cases m with
    | done w₀ =>
      have hstep : w₀.step q = (next (q.answers r)).eval q.answers := by
        have hask : w₀.askStep q = .ask r next := hm
        rw [step, hask]
        rfl
      exact ⟨n + 1, by rw [Asking.eval, run, hstep, hn], hp⟩
    | ask r' next' =>
      cases hm
      exact ⟨n, hn, hp⟩

end Comes

theorem comes_of_run (h : (run q n w).pending = []) :
    ∃ rs, Comes q.answers q (w.askStep q) rs (run q n w) ∧
      (run q n w).trace = w.trace ++ .ofRequests rs := by
  induction n generalizing w with
  | zero =>
    have hp : w.pending = [] := h
    refine ⟨[], ?_, by simp [run, Trace.append_def, Trace.ofRequests]⟩
    rw [askStep_drained hp]
    exact .drained hp
  | succ n ih =>
    obtain ⟨rs, hcomes, htrace⟩ := ih h
    refine ⟨(w.askStep q).requests q.answers ++ rs, ?_, ?_⟩
    · have hall := Comes.of_eval (m := w.askStep q) hcomes
      rwa [resume_askStep] at hall
    · rw [run, htrace, trace_step, Trace.append_assoc, ← Trace.ofRequests_append]

theorem Ends.exists_comes (he : Ends q) :
    ∃ rs, Comes q.answers q ((start q).askStep q) rs (finished q) ∧
      (finished q).trace = .ofRequests rs := by
  obtain ⟨n, hn⟩ := he
  obtain ⟨rs, hcomes, htrace⟩ := comes_of_run hn
  rw [← finished_eq_run hn] at hcomes htrace
  refine ⟨rs, hcomes, htrace.trans ?_⟩
  simp [start, trace, Trace.append_def]

theorem Comes.ends (h : Comes q.answers q ((start q).askStep q) rs w) :
    Ends q ∧ w = finished q := by
  obtain ⟨n, hn, hp⟩ := h.exists_run (m := .done (start q)) rfl
  have hn : run q n (start q) = w := hn
  subst hn
  exact ⟨⟨n, hp⟩, (finished_eq_run hp).symm⟩

end Walk

-- ---------------------------------------------------------------------------
-- Pools
-- ---------------------------------------------------------------------------

structure Scanning where
  request : ScanRequest
  program : Asking Walk

abbrev Scanned := TypeName × Traced (Except ScanError (Std.ExtTreeSet TypeName))

def ScanRequest.entry (q : ScanRequest) (w : Walk) : Scanned := (q.root, w.outcome Walk.found)

namespace Scanning

def begin (q : ScanRequest) : Scanning := ⟨q, (Walk.start q).askStep q⟩

def entry? (s : Scanning) : Option Scanned :=
  match s.program with
  | .done w => some (s.request.entry w)
  | .ask _ _ => none

end Scanning

abbrev Service (σ : Type) := (r : Request) → σ → r.Answer × σ

/-- From every state that `I` holds of, the answers are these and `I` goes on to hold. -/
def Service.AnswersBy (serve : Service σ) (answer : (r : Request) → r.Answer) (I : σ → Prop) :
    Prop :=
  ∀ r x, I x → (serve r x).1 = answer r ∧ I (serve r x).2

structure Pool (σ : Type) where
  scans : List Scanning
  /-- The state of the service that they share. -/
  state : σ

namespace Pool

/-- Any scan that is not over may have its question answered. -/
inductive Turn (serve : Service σ) : Pool σ → Pool σ → Prop
  | mk (before rest : List Scanning) (q : ScanRequest) (r : Request)
    (next : r.Answer → Asking Walk) (x : σ) :
    Turn serve ⟨before ++ ⟨q, .ask r next⟩ :: rest, x⟩
      ⟨before ++ ⟨q, Walk.resume q (next (serve r x).1)⟩ :: rest, (serve r x).2⟩

variable {serve : Service σ} {answer : (r : Request) → r.Answer} {I : σ → Prop}
  {pool pool' : Pool σ}

-- ---------------------------------------------------------------------------
-- Scans that are over
-- ---------------------------------------------------------------------------

/-- What the scan may come to it could have come to from its start. -/
structure Sound (answer : (r : Request) → r.Answer) (s : Scanning) : Prop where
  drained : ∀ {w}, s.program = .done w → w.pending = []
  origin : ∀ {rs w}, Walk.Comes answer s.request s.program rs w →
    ∃ rs', Walk.Comes answer s.request (Scanning.begin s.request).program rs' w

theorem sound_begin (answer : (r : Request) → r.Answer) (q : ScanRequest) :
    Sound answer (.begin q) where
  drained {w} h := by
    have h : (Walk.start q).askStep q = .done w := h
    obtain ⟨hp, rfl⟩ := Walk.pending_of_askStep_done h
    exact hp
  origin h := ⟨_, h⟩

theorem Sound.resume {next : r.Answer → Asking Walk} (h : Sound answer ⟨q, .ask r next⟩) :
    Sound answer ⟨q, Walk.resume q (next (answer r))⟩ where
  drained hdone := Walk.pending_of_resume_done hdone
  origin hcomes := h.origin (.ask hcomes)

theorem Turn.sound (h : Turn serve pool pool') (ha : serve.AnswersBy answer I)
    (hI : I pool.state) (hs : ∀ s ∈ pool.scans, Sound answer s) :
    I pool'.state ∧ pool'.scans.map Scanning.request = pool.scans.map Scanning.request ∧
      ∀ s ∈ pool'.scans, Sound answer s := by
  cases h with
  | mk before rest q r next x =>
    obtain ⟨hanswer, hnext⟩ := ha r x hI
    refine ⟨hnext, by simp, fun s hmem => ?_⟩
    have hturn : Sound answer ⟨q, Walk.resume q (next (serve r x).1)⟩ := by
      rw [hanswer]
      exact (hs _ (by simp)).resume
    rcases List.mem_append.mp hmem with hmem | hmem
    · exact hs s (List.mem_append_left _ hmem)
    · rcases List.mem_cons.mp hmem with rfl | hmem
      · exact hturn
      · exact hs s (List.mem_append_right _ (List.mem_cons_of_mem _ hmem))

theorem run_sound (ha : serve.AnswersBy answer I) (hI : I pool.state)
    (hs : ∀ s ∈ pool.scans, Sound answer s) (h : Steps (Turn serve) pool n pool') :
    I pool'.state ∧ pool'.scans.map Scanning.request = pool.scans.map Scanning.request ∧
      ∀ s ∈ pool'.scans, Sound answer s := by
  induction h with
  | zero => exact ⟨hI, rfl, hs⟩
  | succ _ hturn ih =>
    obtain ⟨hstate, hrequests, hsound⟩ := ih
    obtain ⟨hstate', hrequests', hsound'⟩ := hturn.sound ha hstate hsound
    exact ⟨hstate', hrequests'.trans hrequests, hsound'⟩

theorem Sound.entry_eq {s : Scanning} (h : Sound s.request.answers s) (he : s.entry? = some e) :
    Walk.Ends s.request ∧ e = s.request.entry (Walk.finished s.request) := by
  unfold Scanning.entry? at he
  cases hp : s.program with
  | ask r next => simp [hp] at he
  | done w =>
    simp only [hp, Option.some.injEq] at he
    have hover : Walk.Comes s.request.answers s.request s.program [] w := by
      rw [hp]
      exact .drained (h.drained hp)
    obtain ⟨rs, hcomes⟩ := h.origin hover
    obtain ⟨hends, rfl⟩ := hcomes.ends
    exact ⟨hends, he.symm⟩

-- ---------------------------------------------------------------------------
-- Scans that end
-- ---------------------------------------------------------------------------

/-- A scan with what it has left to ask and the walk it will come to. -/
structure Bound (answer : (r : Request) → r.Answer) where
  scan : Scanning
  left : List Request
  last : Walk
  comes : Walk.Comes answer scan.request scan.program left last

def Bound.entry (b : Bound answer) : Scanned := b.scan.request.entry b.last

/-- All scans of the pool end, with the questions `rs` left in all. -/
def Settles (answer : (r : Request) → r.Answer) (pool : Pool σ) (rs : List Request)
    (entries : List Scanned) : Prop :=
  ∃ bs : List (Bound answer),
    pool.scans = bs.map Bound.scan ∧ rs = bs.flatMap Bound.left ∧ entries = bs.map Bound.entry

theorem Turn.settles (h : Turn serve pool pool') (ha : serve.AnswersBy answer I)
    (hI : I pool.state) (hs : Settles answer pool rs entries) :
    ∃ r rs', pool'.state = (serve r pool.state).2 ∧ rs.Perm (r :: rs') ∧
      Settles answer pool' rs' entries := by
  obtain ⟨bs, hscans, rfl, rfl⟩ := hs
  cases h with
  | mk before rest q r next x =>
    have hanswer : (serve r x).1 = answer r := (ha r x hI).1
    obtain ⟨front, back, rfl, rfl, hback⟩ := List.map_eq_append_iff.mp hscans.symm
    obtain ⟨⟨scan, left, last, hcomes⟩, back, rfl, hscan, rfl⟩ := List.map_eq_cons_iff.mp hback
    cases hscan
    cases hcomes with
    | @ask _ _ left _ hnext =>
      -- the scan goes on as it does by itself, with its first question behind it
      rw [hanswer]
      refine ⟨r, front.flatMap Bound.left ++ (left ++ back.flatMap Bound.left), rfl, ?_, ?_⟩
      · simp only [List.flatMap_append, List.flatMap_cons, List.cons_append]
        exact List.perm_middle
      · let b : Bound answer := ⟨⟨q, Walk.resume q (next (answer r))⟩, left, last, hnext⟩
        refine ⟨front ++ b :: back, ?_, ?_, ?_⟩
        · simp [b]
        · simp [b]
        · simp [b, Bound.entry]

/-- What becomes of the service is up to the questions that are left, and not to their order. -/
theorem run_settles (account : σ → List Request → γ)
    (hserve : ∀ r x rs, account (serve r x).2 rs = account x (r :: rs))
    (hperm : ∀ x {rs rs'}, List.Perm rs rs' → account x rs = account x rs')
    (ha : serve.AnswersBy answer I) (hI : I pool.state) (hs : Settles answer pool rs entries)
    (h : Steps (Turn serve) pool n pool') :
    I pool'.state ∧ ∃ rs', n + rs'.length = rs.length ∧
      account pool'.state rs' = account pool.state rs ∧ Settles answer pool' rs' entries := by
  induction h with
  | zero => exact ⟨hI, rs, Nat.zero_add _, rfl, hs⟩
  | succ _ hturn ih =>
    obtain ⟨hstate, rs₁, hleft, haccount, hs₁⟩ := ih
    obtain ⟨r, rs₂, hnext, hrs, hs₂⟩ := hturn.settles ha hstate hs₁
    have hlength := hrs.length_eq
    rw [List.length_cons] at hlength
    refine ⟨hnext ▸ (ha r _ hstate).2, rs₂, by omega, ?_, hs₂⟩
    rw [← haccount, hperm _ hrs, ← hserve, hnext]

theorem Settles.exists_turn (serve : Service σ) (h : Settles answer pool rs entries)
    (hrs : rs ≠ []) : ∃ pool', Turn serve pool pool' := by
  obtain ⟨bs, hscans, rfl, rfl⟩ := h
  obtain ⟨⟨⟨q, m⟩, left, last, hcomes⟩, hmem, hleft⟩ : ∃ b ∈ bs, b.left ≠ [] := by
    simpa using hrs
  cases hcomes with
  | drained hp => exact absurd rfl hleft
  | @ask r next _ _ _ =>
    obtain ⟨before, rest, rfl⟩ := List.append_of_mem hmem
    obtain ⟨scans, x⟩ := pool
    simp only [List.map_append, List.map_cons] at hscans
    subst hscans
    exact ⟨_, .mk (before.map Bound.scan) (rest.map Bound.scan) q r next x⟩

theorem Bound.entry?_scan (b : Bound answer) (h : b.left = []) :
    b.scan.entry? = some b.entry := by
  obtain ⟨⟨q, m⟩, left, last, hcomes⟩ := b
  cases hcomes with
  | drained hp => rfl
  | ask hnext => cases h

theorem Settles.entries_eq (h : Settles answer pool [] entries) :
    pool.scans.map Scanning.entry? = entries.map some := by
  obtain ⟨bs, hscans, hrs, rfl⟩ := h
  rw [hscans, List.map_map, List.map_map]
  refine List.map_congr_left fun b hb => ?_
  exact b.entry?_scan (List.flatMap_eq_nil_iff.mp hrs.symm b hb)

/-- In whatever order the scans have their turns, there are `n` turns, and then these are the
results. -/
structure Delivers (serve : Service σ) (pool : Pool σ) (n : Nat) (entries : List Scanned) :
    Prop where
  bounded : ∀ {m pool'}, Steps (Turn serve) pool m pool' → m ≤ n
  continues : ∀ {m pool'}, Steps (Turn serve) pool m pool' → m < n → ∃ next, Turn serve pool' next
  ended : ∀ {pool'}, Steps (Turn serve) pool n pool' →
    pool'.scans.map Scanning.entry? = entries.map some
  ends : ∃ pool', Steps (Turn serve) pool n pool'

theorem Settles.delivers (hs : Settles answer pool rs entries) (ha : serve.AnswersBy answer I)
    (hI : I pool.state) : Delivers serve pool rs.length entries := by
  have hrun {m : Nat} {pool' : Pool σ} (h : Steps (Turn serve) pool m pool') :
      ∃ rs', m + rs'.length = rs.length ∧ Settles answer pool' rs' entries := by
    obtain ⟨-, rs', hleft, -, hs'⟩ :=
      run_settles (fun _ _ => ()) (fun _ _ _ => rfl) (fun _ _ _ _ => rfl) ha hI hs h
    exact ⟨rs', hleft, hs'⟩
  have hcontinues {m : Nat} {pool' : Pool σ} (h : Steps (Turn serve) pool m pool')
      (hm : m < rs.length) : ∃ next, Turn serve pool' next := by
    obtain ⟨rs', hleft, hs'⟩ := hrun h
    refine hs'.exists_turn serve fun hnil => ?_
    rw [hnil, List.length_nil] at hleft
    omega
  constructor
  case bounded =>
    intro m pool' h
    obtain ⟨rs', hleft, -⟩ := hrun h
    omega
  case continues => exact hcontinues
  case ended =>
    intro pool' h
    obtain ⟨rs', hleft, hs'⟩ := hrun h
    obtain rfl : rs' = [] := List.eq_nil_of_length_eq_zero (by omega)
    exact hs'.entries_eq
  case ends =>
    have hreach (m : Nat) (hm : m ≤ rs.length) : ∃ pool', Steps (Turn serve) pool m pool' := by
      induction m with
      | zero => exact ⟨pool, .zero⟩
      | succ m ih =>
        obtain ⟨pool', h⟩ := ih (Nat.le_of_succ_le hm)
        obtain ⟨next, hturn⟩ := hcontinues h hm
        exact ⟨next, .succ h hturn⟩
    exact hreach _ (Nat.le_refl _)

end Pool

end RefScan
