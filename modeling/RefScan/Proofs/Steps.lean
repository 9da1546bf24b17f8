import Mathlib.Data.Nat.Find
import Mathlib.Data.Set.Card
import Mathlib.Data.Set.Finite.Lattice
import Mathlib.Logic.Relation

/-!
# Ways and their lengths

A way of `n` steps along a relation, and the length of a shortest one. Where every single step has
finitely many choices, so have `n` steps (`Steps.finite`). A shortest way meets nothing twice, so it
is no longer than there are things to meet (`IsDistance.le_encard`).
-/

namespace RefScan

inductive Steps (r : α → α → Prop) (a : α) : Nat → α → Prop
  | zero : Steps r a 0 a
  | succ {n b c} : Steps r a n b → r b c → Steps r a (n + 1) c

section

variable {r : α → α → Prop} {a b : α} {n : Nat}

theorem exists_steps_of_reflTransGen (h : Relation.ReflTransGen r a b) : ∃ n, Steps r a n b := by
  induction h with
  | refl => exact ⟨0, .zero⟩
  | tail _ hr ih =>
    obtain ⟨n, hn⟩ := ih
    exact ⟨n + 1, .succ hn hr⟩

theorem Steps.reflTransGen (h : Steps r a n b) : Relation.ReflTransGen r a b := by
  induction h with
  | zero => exact .refl
  | succ _ hr ih => exact .tail ih hr

theorem Steps.mono {r r' : α → α → Prop} (h : ∀ {x y}, r x y → r' x y) (hs : Steps r a n b) :
    Steps r' a n b := by
  induction hs with
  | zero => exact .zero
  | succ _ hr ih => exact .succ ih (h hr)

theorem Steps.finite (hr : ∀ x, {y | r x y}.Finite) (a : α) (n : Nat) :
    {b | Steps r a n b}.Finite := by
  induction n with
  | zero =>
    refine (Set.finite_singleton a).subset ?_
    rintro b ⟨⟩
    rfl
  | succ n ih =>
    refine (ih.biUnion fun b _ => hr b).subset ?_
    rintro c (hc : Steps r a (n + 1) c)
    cases hc with
    | succ hs hstep => exact Set.mem_biUnion hs hstep

end

/-- `n` is the length of a shortest way from `a` to `b`. -/
def IsDistance (r : α → α → Prop) (a : α) (n : Nat) (b : α) : Prop :=
  Steps r a n b ∧ ∀ m, Steps r a m b → n ≤ m

namespace IsDistance

variable {r : α → α → Prop} {a b c : α} {n m : Nat}

theorem unique (h : IsDistance r a n b) (h' : IsDistance r a m b) : n = m :=
  Nat.le_antisymm (h.2 m h'.1) (h'.2 n h.1)

theorem refl (r : α → α → Prop) (a : α) : IsDistance r a 0 a :=
  ⟨.zero, fun _ _ => Nat.zero_le _⟩

theorem eq_of_zero (h : IsDistance r a 0 b) : b = a := by
  cases h.1
  rfl

theorem pos_of_ne (h : IsDistance r a n b) (hne : b ≠ a) : 1 ≤ n := by
  cases n with
  | zero => exact absurd h.eq_of_zero hne
  | succ n => exact Nat.le_add_left 1 n

theorem exists_le (h : Steps r a n b) : ∃ m ≤ n, IsDistance r a m b := by
  classical
  have hex : ∃ n, Steps r a n b := ⟨n, h⟩
  exact ⟨Nat.find hex, Nat.find_min' hex h, Nat.find_spec hex, fun m hm => Nat.find_min' hex hm⟩

theorem pred (h : IsDistance r a (n + 1) c) : ∃ b, IsDistance r a n b ∧ r b c := by
  cases h.1 with
  | succ hs hr =>
    refine ⟨_, ⟨hs, fun m hm => ?_⟩, hr⟩
    have := h.2 (m + 1) (.succ hm hr)
    omega

/-- One step from a type at distance `n` leads to one at distance `n + 1`, unless it is nearer. -/
theorem succ (h : IsDistance r a n b) (hr : r b c)
    (hfar : ∀ m, IsDistance r a m c → n < m) : IsDistance r a (n + 1) c := by
  refine ⟨.succ h.1 hr, fun m hm => ?_⟩
  obtain ⟨k, hk, hd⟩ := exists_le hm
  have := hfar k hd
  omega

end IsDistance

section

variable {r : α → α → Prop} {a b : α} {n : Nat} {S : Set α}

/-- The types on a shortest way, the first one apart. -/
theorem IsDistance.exists_nodup (h : IsDistance r a n b) (hS : ∀ {x y}, r x y → y ∈ S) :
    ∃ l : List α, l.length = n ∧ l.Nodup ∧
      ∀ x ∈ l, x ∈ S ∧ ∃ m ≤ n, IsDistance r a m x := by
  induction n generalizing b with
  | zero => exact ⟨[], rfl, List.nodup_nil, by simp⟩
  | succ n ih =>
    obtain ⟨c, hc, hr⟩ := h.pred
    obtain ⟨l, hlen, hnodup, hl⟩ := ih hc
    refine ⟨b :: l, by rw [List.length_cons, hlen], List.nodup_cons.mpr ⟨fun hb => ?_, hnodup⟩, ?_⟩
    · -- all others are nearer
      obtain ⟨-, m, hm, hdist⟩ := hl b hb
      have := hdist.unique h
      omega
    · intro x hx
      rcases List.mem_cons.mp hx with rfl | hx
      · exact ⟨hS hr, n + 1, Nat.le_refl _, h⟩
      · obtain ⟨hxS, m, hm, hdist⟩ := hl x hx
        exact ⟨hxS, m, Nat.le_succ_of_le hm, hdist⟩

theorem IsDistance.le_encard (h : IsDistance r a n b) (hS : ∀ {x y}, r x y → y ∈ S) :
    (n : ℕ∞) ≤ S.encard := by
  classical
  obtain ⟨l, hlen, hnodup, hl⟩ := h.exists_nodup hS
  have hsub : (l.toFinset : Set α) ⊆ S := by
    intro x hx
    exact (hl x (by simpa using hx)).1
  calc (n : ℕ∞) = (l.toFinset : Set α).encard := by
        rw [Set.encard_coe_eq_coe_finsetCard, List.toFinset_card_of_nodup hnodup, hlen]
    _ ≤ S.encard := Set.encard_le_encard hsub

end

end RefScan
