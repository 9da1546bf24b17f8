import Mathlib.Data.List.Induction
import Mathlib.Data.List.Nodup
import RefScan.Proofs.Universe

/-!
# A universe by the calls that made it

Whatever is called on an empty universe, changes, loads, resolutions and queries in any order, a
name has the content of its last insertion and no other (`Holds`). So no name has bytes and is a
stub as well, which is what makes the size the number of the names. A call is answered from what is
held under its own name, and calls about other names do not change that.
-/

namespace RefScan.Universe

inductive Call where
  | change (c : Change)
  | load (t : TypeName)
  | resolve (name : String)
  | contains (name : String)
  | names
  | size
  | loadCount
  | resolutionCount
deriving DecidableEq, Repr

inductive Answer where
  | done
  | bytes (result : Except LoadError Bytes)
  | handle (result : Except ResolveError TypeName)
  | verdict (yes : Bool)
  | listing (names : List String)
  | number (n : Nat)

namespace Call

def name? : Call → Option String
  | change c => some c.name
  | load t => some t.name
  | resolve name => some name
  | contains name => some name
  | names | size | loadCount | resolutionCount => none

/-- What a call inserts under a name: bytes, or none of them for a stub. -/
def inserted? (name : String) : Call → Option (Option Bytes)
  | change (.insertBytes n bytes) => if n = name then some (some bytes) else none
  | change (.insertUnit unit) => if unit.type.name = name then some (some unit.bytes) else none
  | change (.insertStub n) => if n = name then some none else none
  | _ => none

def changed? (name : String) : Call → Option Change
  | change c => if c.name = name then some c else none
  | _ => none

def isLoad : Call → Bool
  | load _ => true
  | _ => false

def isResolve : Call → Bool
  | resolve _ => true
  | _ => false

end Call

def perform (u : Universe) : Call → Answer × Universe
  | .change c => (.done, u.apply c)
  | .load t => (.bytes (u.load t).1, (u.load t).2)
  | .resolve name => (.handle (u.resolve name).1, (u.resolve name).2)
  | .contains name => (.verdict (u.contains name), u)
  | .names => (.listing u.names, u)
  | .size => (.number u.size, u)
  | .loadCount => (.number u.loads, u)
  | .resolutionCount => (.number u.resolutions, u)

def ofCalls (calls : List Call) : Universe := calls.foldl (fun u c => (u.perform c).2) {}

/-- What the last of the insertions under a name put there. -/
def lastInserted? (calls : List Call) (name : String) : Option (Option Bytes) :=
  calls.reverse.findSome? (Call.inserted? name)

theorem findSome?_reverse_concat (f : Call → Option α) (calls : List Call) (c : Call) :
    (calls ++ [c]).reverse.findSome? f = (f c).or (calls.reverse.findSome? f) := by
  rw [List.reverse_append, List.reverse_singleton, List.singleton_append, List.findSome?_cons]
  cases f c <;> rfl

theorem lastInserted?_concat (calls : List Call) (c : Call) (name : String) :
    lastInserted? (calls ++ [c]) name = (c.inserted? name).or (lastInserted? calls name) :=
  findSome?_reverse_concat (Call.inserted? name) calls c

theorem ofCalls_concat (calls : List Call) (c : Call) :
    ofCalls (calls ++ [c]) = ((ofCalls calls).perform c).2 := by
  simp only [ofCalls, List.foldl_append, List.foldl_cons, List.foldl_nil]

variable {u : Universe} {calls : List Call} {name : String}

theorem Call.changed?_eq_some {c : Call} {d : Change} (h : c.changed? name = some d) :
    c = .change d ∧ d.name = name := by
  cases c with
  | change d' =>
    rw [changed?] at h
    split at h
    · cases h
      exact ⟨rfl, ‹_›⟩
    · cases h
  | _ => cases h

-- ---------------------------------------------------------------------------
-- Contents and counters
-- ---------------------------------------------------------------------------

/-- The universe holds what the calls inserted last, and has counted them. -/
structure Holds (u : Universe) (calls : List Call) : Prop where
  units : ∀ name, u.units[name]? = (lastInserted? calls name).join
  stubs : ∀ name, name ∈ u.stubs ↔ lastInserted? calls name = some none
  loads : u.loads = calls.countP Call.isLoad
  resolutions : u.resolutions = calls.countP Call.isResolve

theorem holds_empty : Holds {} [] := by
  constructor <;> simp [lastInserted?]

theorem Holds.of_not_inserted (h : Holds u calls) {u' : Universe} {c : Call}
    (hc : ∀ name, c.inserted? name = none) (hunits : u'.units = u.units)
    (hstubs : u'.stubs = u.stubs) (hloads : u'.loads = u.loads + c.isLoad.toNat)
    (hresolutions : u'.resolutions = u.resolutions + c.isResolve.toNat) :
    Holds u' (calls ++ [c]) where
  units name := by simp [lastInserted?_concat, hc, hunits, h.units]
  stubs name := by simp [lastInserted?_concat, hc, hstubs, h.stubs]
  loads := by cases hl : c.isLoad <;> simp [hloads, h.loads, hl]
  resolutions := by
    cases hr : c.isResolve <;> simp [hresolutions, h.resolutions, hr]

theorem Holds.insertBytes (h : Holds u calls) {c : Call} {bytes : Bytes}
    (hc : ∀ other, c.inserted? other = if name = other then some (some bytes) else none)
    (hload : c.isLoad = false) (hresolve : c.isResolve = false) :
    Holds (u.insertBytes name bytes) (calls ++ [c]) where
  units other := by
    by_cases hn : name = other <;>
      simp [lastInserted?_concat, hc, Universe.insertBytes, Std.ExtTreeMap.getElem?_insert, hn,
        h.units]
  stubs other := by
    by_cases hn : name = other <;>
      simp [lastInserted?_concat, hc, Universe.insertBytes, hn, h.stubs]
  loads := by simp [Universe.insertBytes, h.loads, hload]
  resolutions := by simp [Universe.insertBytes, h.resolutions, hresolve]

theorem Holds.insertStub (h : Holds u calls) (name : String) :
    Holds (u.insertStub name) (calls ++ [.change (.insertStub name)]) where
  units other := by
    by_cases hn : name = other <;>
      simp [lastInserted?_concat, Call.inserted?, Universe.insertStub,
        Std.ExtTreeMap.getElem?_erase, hn, h.units]
  stubs other := by
    by_cases hn : name = other <;>
      simp [lastInserted?_concat, Call.inserted?, Universe.insertStub, hn, h.stubs]
  loads := by simp [Universe.insertStub, h.loads, Call.isLoad]
  resolutions := by simp [Universe.insertStub, h.resolutions, Call.isResolve]

theorem Holds.perform (h : Holds u calls) (c : Call) :
    Holds (u.perform c).2 (calls ++ [c]) := by
  cases c with
  | change c =>
    cases c with
    | insertBytes name bytes => exact h.insertBytes (fun _ => rfl) rfl rfl
    | insertUnit unit => exact h.insertBytes (fun _ => rfl) rfl rfl
    | insertStub name => exact h.insertStub name
    | markBroken name reason => exact h.of_not_inserted (fun _ => rfl) rfl rfl rfl rfl
  | load t => exact h.of_not_inserted (fun _ => rfl) rfl rfl rfl rfl
  | resolve name => exact h.of_not_inserted (fun _ => rfl) rfl rfl rfl rfl
  | contains name => exact h.of_not_inserted (fun _ => rfl) rfl rfl rfl rfl
  | names => exact h.of_not_inserted (fun _ => rfl) rfl rfl rfl rfl
  | size => exact h.of_not_inserted (fun _ => rfl) rfl rfl rfl rfl
  | loadCount => exact h.of_not_inserted (fun _ => rfl) rfl rfl rfl rfl
  | resolutionCount => exact h.of_not_inserted (fun _ => rfl) rfl rfl rfl rfl

theorem holds_ofCalls (calls : List Call) : Holds (ofCalls calls) calls := by
  induction calls using List.reverseRecOn with
  | nil => exact holds_empty
  | append_singleton calls c ih =>
    rw [ofCalls_concat]
    exact ih.perform c

theorem Holds.disjoint (h : Holds u calls) (name : String) :
    ¬ (name ∈ u.units ∧ name ∈ u.stubs) := by
  rintro ⟨hunit, hstub⟩
  rw [Std.ExtTreeMap.mem_iff_isSome_getElem?, h.units, (h.stubs name).mp hstub] at hunit
  cases hunit

theorem Holds.bytesOf (h : Holds u calls) {bytes : Bytes} :
    u.bytesOf ⟨name⟩ = .ok bytes ↔ lastInserted? calls name = some (some bytes) := by
  rw [← Option.join_eq_some_iff, ← h.units]
  unfold Universe.bytesOf
  cases u.units[name]? <;> simp

-- ---------------------------------------------------------------------------
-- Listings
-- ---------------------------------------------------------------------------

theorem names_ordered (u : Universe) : u.names.Pairwise (· < ·) := by
  unfold names
  exact Std.ExtTreeSet.ordered_toList.imp lt_of_compare

theorem length_names (h : ∀ name, ¬ (name ∈ u.units ∧ name ∈ u.stubs)) :
    u.names.length = u.size := by
  have hnames : u.names.Nodup := (names_ordered u).imp fun hlt => String.ne_of_lt hlt
  have hstubs : u.stubs.toList.Nodup :=
    u.stubs.distinct_toList.imp fun hne heq => hne (by simp [heq])
  have happend : (u.units.keys ++ u.stubs.toList).Nodup := by
    refine u.units.nodup_keys.append hstubs fun name hunit hstub => h name ⟨?_, ?_⟩
    · exact Std.ExtTreeMap.mem_keys.mp hunit
    · exact Std.ExtTreeSet.mem_toList.mp hstub
  have hperm : u.names.Perm (u.units.keys ++ u.stubs.toList) :=
    (List.perm_ext_iff_of_nodup hnames happend).mpr fun name => by simp [mem_names, contains]
  rw [hperm.length_eq, List.length_append, Std.ExtTreeMap.length_keys,
    Std.ExtTreeSet.length_toList, size]

-- ---------------------------------------------------------------------------
-- Answers
-- ---------------------------------------------------------------------------

/-- Calls that change nothing under a name, queries about it included. -/
theorem alike_perform_of_not_changed (u : Universe) {c : Call} (h : c.changed? name = none) :
    Alike u (u.perform c).2 name := by
  cases c with
  | change c =>
    refine alike_apply u fun hname => ?_
    rw [Call.changed?, if_pos hname] at h
    cases h
  | load t => exact ⟨rfl, .rfl, rfl⟩
  | resolve other => exact ⟨rfl, .rfl, rfl⟩
  | contains other => exact .refl u name
  | names => exact .refl u name
  | size => exact .refl u name
  | loadCount => exact .refl u name
  | resolutionCount => exact .refl u name

theorem alike_perform (u : Universe) {c : Call} (h : c.name? ≠ some name) :
    Alike u (u.perform c).2 name := by
  refine alike_perform_of_not_changed u (Option.eq_none_iff_forall_ne_some.mpr fun d hd => ?_)
  obtain ⟨rfl, rfl⟩ := Call.changed?_eq_some hd
  exact h rfl

theorem Alike.answer {u' : Universe} (h : Alike u u' name) {question : Call}
    (hq : question.name? = some name) : (u'.perform question).1 = (u.perform question).1 := by
  cases question with
  | change c => rfl
  | load t =>
    cases hq
    exact congrArg Answer.bytes h.bytesOf
  | resolve other =>
    cases hq
    exact congrArg Answer.handle h.handleOf
  | contains other =>
    cases hq
    exact congrArg Answer.verdict h.contains
  | names => cases hq
  | size => cases hq
  | loadCount => cases hq
  | resolutionCount => cases hq

structure Answers (u : Universe) (calls : List Call) : Prop where
  disjoint : ∀ name, ¬ (name ∈ u.units ∧ name ∈ u.stubs)
  ordered : u.names.Pairwise (· < ·)
  names : ∀ name, name ∈ u.names ↔ u.contains name = true
  size : u.size = u.names.length
  /-- The bytes under a name are those inserted last, unless that was a stub. -/
  load : ∀ name bytes, (u.load ⟨name⟩).1 = .ok bytes ↔
    lastInserted? calls name = some (some bytes)
  resolve : ∀ name t, (u.resolve name).1 = .ok t → t = ⟨name⟩ ∧ u.contains name = true
  /-- A call changes nothing for names it is not about. -/
  apart : ∀ (c question : Call) (name : String), c.name? ≠ some name →
    question.name? = some name →
      ((u.perform c).2.perform question).1 = (u.perform question).1 ∧
      (name ∈ (u.perform c).2.names ↔ name ∈ u.names)
  loads : u.loads = calls.countP Call.isLoad
  resolutions : u.resolutions = calls.countP Call.isResolve

/-- After any calls a universe answers as they tell it to. -/
theorem answers_ofCalls (calls : List Call) : (ofCalls calls).Answers calls := by
  have hholds := holds_ofCalls calls
  constructor
  case disjoint => exact hholds.disjoint
  case ordered => exact names_ordered _
  case names => exact fun _ => mem_names
  case size => exact (length_names hholds.disjoint).symm
  case load => exact fun _ _ => hholds.bytesOf
  case resolve => exact fun _ _ => handleOf_eq_ok
  case apart =>
    intro c question name hc hquestion
    have halike := alike_perform (ofCalls calls) hc
    exact ⟨halike.answer hquestion, by rw [mem_names, mem_names, halike.contains]⟩
  case loads => exact hholds.loads
  case resolutions => exact hholds.resolutions

end RefScan.Universe
