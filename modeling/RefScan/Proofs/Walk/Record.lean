import RefScan.Proofs.Asking
import RefScan.Scan.Report

/-!
# A walk's record of its questions

A walk notes its questions in three lists. Whatever the answers are, a part of the walk adds to
these what it has asked and nothing else (`OnRecord`), and so does a whole step (`trace_step`).
-/

namespace RefScan

namespace Request

def load? : Request → Option TypeName
  | load t => some t
  | _ => none

def resolve? : Request → Option String
  | resolve name => some name
  | _ => none

def exclude? : Request → Option TypeName
  | exclude _ t => some t
  | _ => none

end Request

namespace Trace

def ofRequests (rs : List Request) : Trace :=
  ⟨rs.filterMap Request.load?, rs.filterMap Request.resolve?, rs.filterMap Request.exclude?⟩

def size (t : Trace) : Nat := t.loads.length + t.resolutions.length + t.questions.length

theorem append_def (a b : Trace) :
    a ++ b = ⟨a.loads ++ b.loads, a.resolutions ++ b.resolutions, a.questions ++ b.questions⟩ := rfl

theorem append_assoc (a b c : Trace) : a ++ b ++ c = a ++ (b ++ c) := by
  simp [append_def]

theorem ofRequests_append (rs rs' : List Request) :
    ofRequests (rs ++ rs') = ofRequests rs ++ ofRequests rs' := by
  simp [ofRequests, append_def]

theorem size_append (a b : Trace) : (a ++ b).size = a.size + b.size := by
  simp only [size, append_def, List.length_append]
  omega

theorem size_ofRequests (rs : List Request) : (ofRequests rs).size = rs.length := by
  induction rs with
  | nil => rfl
  | cons r rs ih =>
    have hone : (ofRequests [r]).size = 1 := by cases r <;> rfl
    rw [← List.singleton_append, ofRequests_append, size_append, ih, hone, List.length_append,
      List.length_singleton]

end Trace

namespace Walk

/-- The program `m`, begun at `w`, comes to a walk with the questions of `m` on record. -/
def OnRecord (answer : (r : Request) → r.Answer) (w : Walk) (m : Asking α) (last : α → Walk) :
    Prop :=
  (last (m.eval answer)).trace = w.trace ++ .ofRequests (m.requests answer)

variable {answer : (r : Request) → r.Answer} {w w' : Walk}

namespace OnRecord

variable {last : α → Walk}

theorem pure {x : α} (h : (last x).trace = w.trace) : OnRecord answer w (Pure.pure x) last := by
  rw [OnRecord, Asking.eval_pure, Asking.requests_pure, h]
  simp [Trace.append_def, Trace.ofRequests]

theorem ask (told : Walk) {next : r.Answer → Asking α}
    (hr : told.trace = w.trace ++ .ofRequests [r])
    (h : OnRecord answer told (next (answer r)) last) : OnRecord answer w (.ask r next) last := by
  have hlater : (last ((next (answer r)).eval answer)).trace =
      told.trace ++ .ofRequests ((next (answer r)).requests answer) := h
  rw [hr, Trace.append_assoc, ← Trace.ofRequests_append] at hlater
  exact hlater

theorem bind {m : Asking α} {f : α → Asking β} {last' : β → Walk} (h : OnRecord answer w m last)
    (h' : ∀ x, OnRecord answer (last x) (f x) last') : OnRecord answer w (m >>= f) last' := by
  have hlater := h' (m.eval answer)
  rw [OnRecord, h, Trace.append_assoc, ← Trace.ofRequests_append] at hlater
  rw [OnRecord, Asking.eval_bind, Asking.requests_bind]
  exact hlater

theorem of_trace {m : Asking α} (h : OnRecord answer w m last) (hw : w'.trace = w.trace) :
    OnRecord answer w' m last := by
  rwa [OnRecord, hw]

end OnRecord

theorem onRecord_resolve (w : Walk) (name : String) :
    OnRecord answer w (w.askResolve name) Prod.snd := by
  unfold askResolve
  cases w.resolved[name]? with
  | some known => exact .pure rfl
  | none =>
    refine .ask (w.told name (answer (.resolve name))) ?_ (.pure rfl)
    simp [trace, told, Trace.append_def, Trace.ofRequests, Request.load?, Request.resolve?,
      Request.exclude?]

theorem onRecord_excludes (q : ScanRequest) (w : Walk) (t : TypeName) :
    OnRecord answer w (w.askExcludes q t) Prod.snd := by
  unfold askExcludes
  cases w.verdicts[t]? with
  | some verdict => exact .pure rfl
  | none =>
    simp only
    split
    · exact .pure rfl
    · refine .ask (w.judged t (answer (.exclude w.questions t))) ?_ (.pure rfl)
      simp [trace, judged, Trace.append_def, Trace.ofRequests, Request.load?, Request.resolve?,
        Request.exclude?]

theorem onRecord_examine (q : ScanRequest) (unit : TypeName) (w : Walk) (name : String) :
    OnRecord answer w (w.askExamine q unit name) Prod.snd := by
  refine .bind ((onRecord_resolve w.counted name).of_trace rfl) fun ⟨t?, w₁⟩ => ?_
  cases t? with
  | none => exact .pure rfl
  | some t =>
    simp only
    split
    · exact .pure rfl
    · exact .bind (onRecord_excludes q w₁ t) fun _ => .pure rfl

theorem onRecord_accept (q : ScanRequest) (unit : TypeName) (w : Walk) (names : List String) :
    OnRecord answer w (askAccept q unit w names) Prod.snd := by
  induction names generalizing w with
  | nil => exact .pure rfl
  | cons name names ih =>
    refine .bind (onRecord_examine q unit w name) fun ⟨_, w₁⟩ => ?_
    exact .bind (ih w₁) fun _ => .pure rfl

theorem trace_note (q : ScanRequest) (unit : TypeName) (depth : Nat) (w : Walk) (t : TypeName) :
    (w.note q unit depth t).2.trace = w.trace := by
  by_cases ht : t = q.root
  · simp [note, ht, trace]
  cases hrec : q.options.recursive with
  | false => simp [note, ht, hrec, trace]
  | true => by_cases hv : t ∈ w.visited <;> simp [note, ht, hrec, hv, trace]

theorem trace_noteAll (q : ScanRequest) (unit : TypeName) (depth : Nat) (w : Walk)
    (ts : List TypeName) : (noteAll q unit depth w ts).2.trace = w.trace := by
  induction ts generalizing w with
  | nil => rfl
  | cons t ts ih => exact (ih _).trans (trace_note q unit depth w t)

theorem onRecord_expand (q : ScanRequest) (unit : TypeName) (depth : Nat) (bytes : Bytes)
    (w : Walk) : OnRecord answer w (w.askExpand q unit depth bytes) id := by
  refine .bind ((onRecord_accept q unit (w.marked unit) _).of_trace rfl) fun ⟨ts, w₁⟩ => ?_
  exact .pure (trace_noteAll q unit depth w₁ ts)

theorem trace_abandon (q : ScanRequest) (unit : TypeName) (cause : LoadError) (w : Walk) :
    (w.abandon q unit cause).trace = w.trace := by
  unfold abandon
  split <;> rfl

theorem onRecord_step (q : ScanRequest) (w : Walk) : OnRecord answer w (w.askStep q) id := by
  unfold askStep
  cases w.pending with
  | nil => exact .pure rfl
  | cons head rest =>
    obtain ⟨unit, depth⟩ := head
    refine .ask (w.opened unit rest) ?_ ?_
    · simp [trace, opened, Trace.append_def, Trace.ofRequests, Request.load?, Request.resolve?,
        Request.exclude?]
    · cases answer (.load unit) with
      | ok bytes => exact onRecord_expand q unit depth bytes _
      | error cause => exact .pure (trace_abandon q unit cause _)

theorem trace_step (q : ScanRequest) (w : Walk) :
    (w.step q).trace = w.trace ++ .ofRequests ((w.askStep q).requests q.answers) :=
  onRecord_step q w

end Walk

end RefScan
