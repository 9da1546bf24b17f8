import RefScan.Text.Utf8

/-!
# Reading UTF-8 keeps ASCII apart

A byte below `0x80` continues no sequence, so it ends whatever has begun and stands for itself
(`decodeFrom_append_ascii`). All other bytes stand for characters above ASCII, at least one for
each run of them (`not_ascii_of_mem_decodeFrom`, `decodeFrom_ne_nil`). The ranges that a begun
sequence carries see to it that what it completes is a character (`Begun.Sound`).
-/

namespace RefScan.Text.Utf8

def shifted (n : Nat) : Nat → Nat
  | 0 => n
  | k + 1 => shifted (n * 64) k

theorem shifted_le (h : m ≤ n) (k : Nat) : shifted m k ≤ shifted n k := by
  induction k generalizing m n with
  | zero => exact h
  | succ k ih => exact ih (Nat.mul_le_mul_right 64 h)

namespace Begun

/-- The least value that the sequence can complete. -/
def least (s : Begun) : Nat := shifted (s.bits * 64 + (s.low.toNat - 0x80)) s.more

/-- The first value beyond those that the sequence can complete. -/
def bound (s : Begun) : Nat := shifted (s.bits * 64 + (s.high.toNat - 0x80) + 1) s.more

/-- Only continuation bytes follow, and they complete a character that is neither ASCII nor a
surrogate. -/
structure Sound (s : Begun) : Prop where
  low : 0x80 ≤ s.low.toNat
  least : 0x80 ≤ s.least
  scalar : s.bound ≤ 0xD800 ∨ (0xE000 ≤ s.least ∧ s.bound ≤ 0x110000)

end Begun

variable {s : Begun} {state : Option Begun} {b : UInt8}

theorem toNat_ofNat_of_scalar (h : n < 0xD800 ∨ (0xE000 ≤ n ∧ n < 0x110000)) :
    (Char.ofNat n).toNat = n := by
  rw [Char.ofNat, dif_pos (show n.isValidChar from h)]
  rfl

-- ---------------------------------------------------------------------------
-- Begun sequences
-- ---------------------------------------------------------------------------

theorem sound_of_begin? (h : begin? b = some s) : s.Sound := by
  simp only [begin?, UInt8.le_iff_toNat_le] at h
  split at h
  · rename_i hb
    obtain rfl := Option.some.inj h
    simp only [UInt8.reduceToNat] at hb
    constructor <;> simp [Begun.least, Begun.bound, shifted] <;> omega
  split at h
  · obtain rfl := Option.some.inj h
    constructor <;> simp [Begun.least, Begun.bound, shifted]
  split at h
  · obtain rfl := Option.some.inj h
    constructor <;> simp [Begun.least, Begun.bound, shifted]
  split at h
  · rename_i hED hb
    obtain rfl := Option.some.inj h
    have hne : b.toNat ≠ 0xED := fun heq => hED (UInt8.toNat.inj heq)
    simp only [UInt8.reduceToNat] at hb
    constructor <;> simp [Begun.least, Begun.bound, shifted] <;> omega
  split at h
  · obtain rfl := Option.some.inj h
    constructor <;> simp [Begun.least, Begun.bound, shifted]
  split at h
  · rename_i hb
    obtain rfl := Option.some.inj h
    simp only [UInt8.reduceToNat] at hb
    constructor <;> simp [Begun.least, Begun.bound, shifted] <;> omega
  split at h
  · obtain rfl := Option.some.inj h
    constructor <;> simp [Begun.least, Begun.bound, shifted]
  · cases h

theorem sound_of_first (h : (first b).2 = some s) : s.Sound := by
  unfold first at h
  split at h
  · cases h
  · split at h
    · rename_i s' hs'
      exact sound_of_begin? (hs'.trans h)
    · cases h

theorem Begun.least_of_full (x k : Nat) :
    (⟨x, 0x80, 0xBF, k⟩ : Begun).least = shifted x (k + 1) := by
  simp [Begun.least, shifted]

theorem Begun.bound_of_full (x k : Nat) :
    (⟨x, 0x80, 0xBF, k⟩ : Begun).bound = shifted (x + 1) (k + 1) := by
  have h : x * 64 + ((0xBF : UInt8).toNat - 0x80) + 1 = (x + 1) * 64 := by
    simp only [UInt8.reduceToNat]
    omega
  rw [Begun.bound, h, shifted]

theorem Begun.Sound.next (hs : s.Sound) (hmore : s.more = k + 1) (hl : s.low ≤ b)
    (hh : b ≤ s.high) :
    (⟨s.bits * 64 + (b.toNat - 0x80), 0x80, 0xBF, k⟩ : Begun).Sound := by
  rw [UInt8.le_iff_toNat_le] at hl hh
  -- the values left are those of the group that `b` stands for
  have hleast : s.least ≤ shifted (s.bits * 64 + (b.toNat - 0x80)) (k + 1) := by
    rw [Begun.least, hmore]
    exact shifted_le (by omega) _
  have hbound : shifted (s.bits * 64 + (b.toNat - 0x80) + 1) (k + 1) ≤ s.bound := by
    rw [Begun.bound, hmore]
    exact shifted_le (by omega) _
  constructor
  case low => simp
  case least =>
    rw [Begun.least_of_full]
    exact Nat.le_trans hs.least hleast
  case scalar =>
    rw [Begun.least_of_full, Begun.bound_of_full]
    rcases hs.scalar with h | ⟨hl, hu⟩
    · exact .inl (Nat.le_trans hbound h)
    · exact .inr ⟨Nat.le_trans hl hleast, Nat.le_trans hbound hu⟩

theorem Begun.Sound.last (hs : s.Sound) (hmore : s.more = 0) (hl : s.low ≤ b)
    (hh : b ≤ s.high) : 0x80 ≤ (Char.ofNat (s.bits * 64 + (b.toNat - 0x80))).toNat := by
  rw [UInt8.le_iff_toNat_le] at hl hh
  have hleast := hs.least
  have hscalar := hs.scalar
  simp only [Begun.least, Begun.bound, hmore, shifted] at hleast hscalar
  rw [toNat_ofNat_of_scalar (by omega)]
  omega

theorem sound_feed (hs : ∀ s ∈ state, s.Sound) : ∀ s ∈ (feed state b).2, s.Sound := by
  intro s' h
  cases state with
  | none => exact sound_of_first h
  | some s =>
    simp only [feed] at h
    split at h
    · rename_i hb
      split at h
      · cases h
      · rename_i more hmore
        obtain rfl := Option.some.inj h
        exact (hs s rfl).next hmore hb.1 hb.2
    · exact sound_of_first h

-- ---------------------------------------------------------------------------
-- ASCII and the rest
-- ---------------------------------------------------------------------------

theorem feed_ascii (hs : ∀ s ∈ state, s.Sound) (hb : b < 0x80) :
    feed state b = (finish state ++ [Char.ofNat b.toNat], none) := by
  have hfirst : first b = ([Char.ofNat b.toNat], none) := by simp [first, hb]
  cases state with
  | none => exact hfirst
  | some s =>
    have hout : ¬ (s.low ≤ b ∧ b ≤ s.high) := by
      rintro ⟨hl, -⟩
      have hlow := (hs s rfl).low
      have hl : s.low.toNat ≤ b.toNat := UInt8.le_iff_toNat_le.mp hl
      have hb : b.toNat < 0x80 := UInt8.lt_iff_toNat_lt.mp hb
      omega
    simp [feed, hout, hfirst, finish]

/-- A byte below `0x80` reads as itself wherever it stands. -/
theorem decodeFrom_append_ascii (hs : ∀ s ∈ state, s.Sound) (hb : b < 0x80) (u v : Bytes) :
    decodeFrom state (u ++ b :: v) =
      decodeFrom state u ++ Char.ofNat b.toNat :: decodeFrom none v := by
  induction u generalizing state with
  | nil => simp [decodeFrom, feed_ascii hs hb]
  | cons x u ih => simp [decodeFrom, ih (sound_feed hs)]

theorem toNat_replacement : 0x80 ≤ replacement.toNat := by decide

theorem first_not_ascii (hb : 0x80 ≤ b) :
    (∀ c ∈ (first b).1, 0x80 ≤ c.toNat) ∧ ((first b).1 = [] → (first b).2.isSome) := by
  have hb' : ¬ b < 0x80 := UInt8.not_lt.mpr hb
  unfold first
  rw [if_neg hb']
  split
  · simp
  · simp [toNat_replacement]

theorem feed_not_ascii (hs : ∀ s ∈ state, s.Sound) (hb : 0x80 ≤ b) :
    (∀ c ∈ (feed state b).1, 0x80 ≤ c.toNat) ∧
      ((feed state b).1 = [] → (feed state b).2.isSome) := by
  cases state with
  | none => exact first_not_ascii hb
  | some s =>
    simp only [feed]
    by_cases hin : s.low ≤ b ∧ b ≤ s.high
    · rw [if_pos hin]
      split
      · rename_i hmore
        simp [(hs s rfl).last hmore hin.1 hin.2]
      · simp
    · rw [if_neg hin]
      simpa [toNat_replacement] using (first_not_ascii hb).1

theorem not_ascii_of_mem_decodeFrom (hs : ∀ s ∈ state, s.Sound) (hr : ∀ b ∈ r, 0x80 ≤ b)
    (hc : c ∈ decodeFrom state r) : 0x80 ≤ c.toNat := by
  induction r generalizing state with
  | nil =>
    cases state with
    | none => cases hc
    | some s =>
      obtain rfl := List.mem_singleton.mp hc
      exact toNat_replacement
  | cons b r ih =>
    rcases List.mem_append.mp hc with hc | hc
    · exact (feed_not_ascii hs (hr b List.mem_cons_self)).1 c hc
    · exact ih (sound_feed hs) (fun x hx => hr x (List.mem_cons_of_mem _ hx)) hc

theorem decodeFrom_ne_nil (hs : ∀ s ∈ state, s.Sound) (hr : ∀ b ∈ r, 0x80 ≤ b)
    (hne : state.isSome ∨ r ≠ []) : decodeFrom state r ≠ [] := by
  induction r generalizing state with
  | nil =>
    cases state with
    | none => simp at hne
    | some s => simp [decodeFrom, finish]
  | cons b r ih =>
    intro hnil
    obtain ⟨hnow, hlater⟩ := List.append_eq_nil_iff.mp hnil
    have hbegun := (feed_not_ascii hs (hr b List.mem_cons_self)).2 hnow
    exact ih (sound_feed hs) (fun x hx => hr x (List.mem_cons_of_mem _ hx)) (.inl hbegun) hlater

end RefScan.Text.Utf8
