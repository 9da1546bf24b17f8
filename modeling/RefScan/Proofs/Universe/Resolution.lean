import RefScan.Proofs.Universe.History

/-!
# Which change decides how a name resolves

The last change about a name decides how it resolves, with one exception: a mark stays where only a
stub is inserted after it, so such a stub does not resolve. That is the only way for an earlier
change to show through (`resolve_ofCalls_iff`).
-/

namespace RefScan.Universe

namespace Call

/-- What a call does to the mark on a name: it puts one there, or takes it away. -/
def marked? (name : String) : Call → Option (Option String)
  | change (.markBroken n reason) => if n = name then some (some reason) else none
  | change (.insertBytes n _) => if n = name then some none else none
  | change (.insertUnit unit) => if unit.type.name = name then some none else none
  | _ => none

end Call

def lastChange? (calls : List Call) (name : String) : Option Change :=
  calls.reverse.findSome? (Call.changed? name)

/-- The reason of the last mark on a name if no bytes came after it. -/
def standingMark? (calls : List Call) (name : String) : Option String :=
  (calls.reverse.findSome? (Call.marked? name)).getD none

/-- How a name resolves if its last change alone decides. -/
def settled (name : String) : Option Change → Except ResolveError TypeName
  | none => .error (.notFound name)
  | some (.insertBytes _ _) | some (.insertUnit _) | some (.insertStub _) => .ok ⟨name⟩
  | some (.markBroken _ reason) => .error (.broken name reason)

variable {u : Universe} {calls : List Call} {name : String}

theorem Call.marked?_of_not_changed {c : Call} (h : c.changed? name = none) :
    c.marked? name = none := by
  cases c with
  | change d =>
    have hname : d.name ≠ name := fun hname => by
      rw [changed?, if_pos hname] at h
      cases h
    cases d with
    | insertBytes other bytes => exact if_neg hname
    | insertUnit unit => exact if_neg hname
    | insertStub other => rfl
    | markBroken other reason => exact if_neg hname
  | _ => rfl

theorem standingMark?_concat (calls : List Call) (c : Call) (name : String) :
    standingMark? (calls ++ [c]) name = (c.marked? name).getD (standingMark? calls name) := by
  rw [standingMark?, findSome?_reverse_concat, standingMark?]
  cases c.marked? name <;> rfl

-- ---------------------------------------------------------------------------
-- One change
-- ---------------------------------------------------------------------------

theorem handleOf_of_broken (h : u.broken[name]? = some reason) :
    u.handleOf name = .error (.broken name reason) := by
  simp only [handleOf, h]

theorem handleOf_of_contains (hmark : u.broken[name]? = none) (h : u.contains name = true) :
    u.handleOf name = .ok ⟨name⟩ := by
  simp only [handleOf, hmark, h, if_true]

theorem handleOf_insertBytes (u : Universe) (name : String) (bytes : Bytes) :
    (u.insertBytes name bytes).handleOf name = .ok ⟨name⟩ :=
  handleOf_of_contains (by simp [insertBytes]) (by simp [insertBytes, contains])

theorem handleOf_insertStub (h : u.broken[name]? = none) :
    (u.insertStub name).handleOf name = .ok ⟨name⟩ :=
  handleOf_of_contains h (by simp [insertStub, contains])

theorem handleOf_markBroken (u : Universe) (name reason : String) :
    (u.markBroken name reason).handleOf name = .error (.broken name reason) :=
  handleOf_of_broken (by simp [markBroken])

theorem broken_perform (u : Universe) (c : Call) (name : String) :
    (u.perform c).2.broken[name]? = (c.marked? name).getD u.broken[name]? := by
  have hbytes (other : String) (bytes : Bytes) : (u.insertBytes other bytes).broken[name]? =
      (if other = name then some none else none).getD u.broken[name]? := by
    by_cases h : other = name <;> simp [insertBytes, Std.ExtTreeMap.getElem?_erase, h]
  cases c with
  | change c =>
    cases c with
    | insertBytes other bytes => exact hbytes other bytes
    | insertUnit unit => exact hbytes unit.type.name unit.bytes
    | insertStub other => rfl
    | markBroken other reason =>
      by_cases h : other = name <;>
        simp [perform, apply, markBroken, Call.marked?, Std.ExtTreeMap.getElem?_insert, h]
  | load t => rfl
  | resolve other => rfl
  | contains other => rfl
  | names => rfl
  | size => rfl
  | loadCount => rfl
  | resolutionCount => rfl

-- ---------------------------------------------------------------------------
-- Any calls
-- ---------------------------------------------------------------------------

theorem broken_ofCalls (calls : List Call) (name : String) :
    (ofCalls calls).broken[name]? = standingMark? calls name := by
  induction calls using List.reverseRecOn with
  | nil => simp [ofCalls, standingMark?]
  | append_singleton calls c ih =>
    rw [ofCalls_concat, broken_perform, ih, standingMark?_concat]

/-- Whatever was marked before, the last change decides, unless it inserts a stub. -/
theorem handleOf_ofCalls
    (h : lastChange? calls name = some (.insertStub name) → standingMark? calls name = none) :
    (ofCalls calls).handleOf name = settled name (lastChange? calls name) := by
  induction calls using List.reverseRecOn with
  | nil => simp [ofCalls, lastChange?, settled, handleOf, contains]
  | append_singleton calls c ih =>
    have hlast : lastChange? (calls ++ [c]) name =
        (c.changed? name).or (lastChange? calls name) := findSome?_reverse_concat _ _ _
    rw [hlast, standingMark?_concat] at h
    rw [hlast, ofCalls_concat]
    cases hc : c.changed? name with
    | none =>
      rw [hc, Call.marked?_of_not_changed hc] at h
      exact (alike_perform_of_not_changed _ hc).handleOf.trans (ih h)
    | some d =>
      obtain ⟨rfl, rfl⟩ := Call.changed?_eq_some hc
      rw [hc] at h
      cases d with
      | insertBytes name bytes => exact handleOf_insertBytes _ name bytes
      | insertUnit unit => exact handleOf_insertBytes _ unit.type.name unit.bytes
      -- the one change that leaves a mark where it is
      | insertStub name => exact handleOf_insertStub ((broken_ofCalls calls name).trans (h rfl))
      | markBroken name reason => exact handleOf_markBroken _ name reason

/-- A name resolves as its last change says, except for a stub on a name with a standing mark, which
is still as broken as the mark says. -/
theorem resolve_ofCalls_iff (calls : List Call) (name : String) :
    (((ofCalls calls).resolve name).1 = settled name (lastChange? calls name) ↔
      ¬ (lastChange? calls name = some (.insertStub name) ∧
        (standingMark? calls name).isSome = true)) ∧
    ∀ reason, standingMark? calls name = some reason →
      ((ofCalls calls).resolve name).1 = .error (.broken name reason) := by
  have hmarked (reason : String) (h : standingMark? calls name = some reason) :
      (ofCalls calls).handleOf name = .error (.broken name reason) :=
    handleOf_of_broken ((broken_ofCalls calls name).trans h)
  refine ⟨⟨?_, fun h => handleOf_ofCalls fun hstub => ?_⟩, hmarked⟩
  · rintro hsettled ⟨hstub, hstanding⟩
    obtain ⟨reason, hreason⟩ := Option.isSome_iff_exists.mp hstanding
    have hbroken := (hmarked reason hreason).symm.trans hsettled
    rw [hstub] at hbroken
    cases hbroken
  · rw [← Option.not_isSome_iff_eq_none]
    exact fun hstanding => h ⟨hstub, hstanding⟩

theorem resolve_ofCalls_restored :
    let mark : Call := .change (.markBroken "a.B" "gone")
    let stub : Call := .change (.insertStub "a.B")
    let calls : List Call := [.change (.insertUnit ⟨⟨"a.B"⟩, []⟩), mark, .resolve "a.B", stub]
    let restored : List Call := [mark, .change (.insertBytes "a.B" []), .load ⟨"a.B"⟩, stub]
    standingMark? calls "a.B" = some "gone" ∧
      ((ofCalls calls).resolve "a.B").1 = .error (.broken "a.B" "gone") ∧
      ((ofCalls restored).resolve "a.B").1 = .ok ⟨"a.B"⟩ := by
  intro mark stub calls restored
  have hstanding : standingMark? calls "a.B" = some "gone" := by decide
  have hcleared : (standingMark? restored "a.B").isSome = false := by decide
  refine ⟨hstanding, (resolve_ofCalls_iff calls "a.B").2 _ hstanding, ?_⟩
  refine (resolve_ofCalls_iff restored "a.B").1.mpr ?_
  rintro ⟨-, hmark⟩
  rw [hcleared] at hmark
  cases hmark

theorem resolve_stub_of_marked :
    let calls : List Call := [.change (.markBroken "a.B" "gone"), .change (.insertStub "a.B")]
    ((ofCalls calls).resolve "a.B").1 = .error (.broken "a.B" "gone") ∧
      settled "a.B" (lastChange? calls "a.B") = .ok ⟨"a.B"⟩ := by
  intro calls
  exact ⟨by decide +kernel, rfl⟩

end RefScan.Universe
