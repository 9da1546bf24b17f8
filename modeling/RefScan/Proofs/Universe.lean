import RefScan.Proofs.Source
import RefScan.Universe

/-!
# Changes of a universe

A universe changes by what is put into it and by marks on its types. Every change is about one name,
and whatever is asked about another name has the answer it had before (`alike_after`). What resolves
is among the names in the universe.
-/

namespace RefScan.Universe

inductive Change where
  | insertBytes (name : String) (bytes : Bytes)
  | insertUnit (unit : CompiledUnit)
  | insertStub (name : String)
  | markBroken (name reason : String)
deriving DecidableEq, Repr

def Change.name : Change → String
  | insertBytes name _ => name
  | insertUnit unit => unit.type.name
  | insertStub name => name
  | markBroken name _ => name

def apply (u : Universe) : Change → Universe
  | .insertBytes name bytes => u.insertBytes name bytes
  | .insertUnit unit => u.insertUnit unit
  | .insertStub name => u.insertStub name
  | .markBroken name reason => u.markBroken name reason

def after (u : Universe) (cs : List Change) : Universe := cs.foldl apply u

structure Alike (u u' : Universe) (name : String) : Prop where
  bytes : u'.units[name]? = u.units[name]?
  stub : name ∈ u'.stubs ↔ name ∈ u.stubs
  broken : u'.broken[name]? = u.broken[name]?

variable {u u' u'' : Universe} {name : String}

namespace Alike

theorem refl (u : Universe) (name : String) : Alike u u name := ⟨rfl, .rfl, rfl⟩

theorem trans (h : Alike u u' name) (h' : Alike u' u'' name) : Alike u u'' name :=
  ⟨h'.bytes.trans h.bytes, h'.stub.trans h.stub, h'.broken.trans h.broken⟩

theorem contains (h : Alike u u' name) : u'.contains name = u.contains name := by
  have hunit : name ∈ u'.units ↔ name ∈ u.units := by
    rw [Std.ExtTreeMap.mem_iff_isSome_getElem?, Std.ExtTreeMap.mem_iff_isSome_getElem?, h.bytes]
  simp only [Universe.contains, hunit, h.stub]

theorem bytesOf (h : Alike u u' name) : u'.bytesOf ⟨name⟩ = u.bytesOf ⟨name⟩ := by
  simp only [Universe.bytesOf, h.bytes]

theorem handleOf (h : Alike u u' name) : u'.handleOf name = u.handleOf name := by
  simp only [Universe.handleOf, h.broken, h.contains]

end Alike

theorem alike_insertBytes (u : Universe) (bytes : Bytes) (h : other ≠ name) :
    Alike u (u.insertBytes other bytes) name where
  bytes := by simp [insertBytes, Std.ExtTreeMap.getElem?_insert, h]
  stub := by simp [insertBytes, h]
  broken := by simp [insertBytes, Std.ExtTreeMap.getElem?_erase, h]

theorem alike_apply (u : Universe) {c : Change} (h : c.name ≠ name) : Alike u (u.apply c) name := by
  cases c with
  | insertBytes other bytes => exact alike_insertBytes u bytes h
  | insertUnit unit => exact alike_insertBytes u unit.bytes h
  | insertStub other =>
    have hne : other ≠ name := h
    constructor
    case bytes => simp [apply, insertStub, Std.ExtTreeMap.getElem?_erase, hne]
    case stub => simp [apply, insertStub, hne]
    case broken => rfl
  | markBroken other reason =>
    have hne : other ≠ name := h
    exact ⟨rfl, .rfl, by simp [apply, markBroken, Std.ExtTreeMap.getElem?_insert, hne]⟩

theorem alike_after {cs : List Change} (h : ∀ c ∈ cs, c.name ≠ name) :
    Alike u (u.after cs) name := by
  induction cs generalizing u with
  | nil => exact .refl u name
  | cons c cs ih =>
    exact (alike_apply u (h c List.mem_cons_self)).trans
      (ih fun d hd => h d (List.mem_cons_of_mem _ hd))

theorem contains_of_bytesOf (h : u.bytesOf ⟨name⟩ = .ok bytes) : u.contains name = true := by
  unfold bytesOf at h
  split at h
  · rename_i hbytes
    have hunit : name ∈ u.units := Std.ExtTreeMap.mem_iff_isSome_getElem?.mpr (by simp [hbytes])
    simp [contains, hunit]
  · cases h

theorem handleOf_eq_ok (h : u.handleOf name = .ok t) :
    t = ⟨name⟩ ∧ u.contains name = true := by
  unfold handleOf at h
  split at h
  · cases h
  · split at h
    · cases h
      exact ⟨rfl, ‹_›⟩
    · cases h

theorem mem_names : name ∈ u.names ↔ u.contains name = true := by
  simp [names, contains, Std.ExtTreeSet.mem_ofList]

theorem resolvable_subset (u : Universe) :
    u.source.resolvable ⊆ {t | t ∈ u.names.map TypeName.mk} := by
  rintro t ⟨name, hname⟩
  obtain ⟨rfl, hin⟩ := handleOf_eq_ok hname
  exact List.mem_map_of_mem (mem_names.mpr hin)

theorem finite_resolvable (u : Universe) : u.source.resolvable.Finite :=
  (u.names.map TypeName.mk).finite_toSet.subset u.resolvable_subset

end RefScan.Universe
