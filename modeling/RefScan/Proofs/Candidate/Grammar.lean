import Mathlib.Computability.Language
import RefScan.Proofs.Candidate

/-!
# The grammar of paths

Paths as a formal language over ranges of characters, without reference to how a text is searched.
`pathAt` reads the longest word of it at the head of a text: what it reads is a word if it has a
slash (`pathAt_mem_path`), and any word at the head is the beginning of what it reads
(`prefix_pathAt`).
-/

open scoped Computability

namespace RefScan.Candidate

namespace Grammar

def range (low high : Char) : Language Char := {w | ∃ c, (low ≤ c ∧ c ≤ high) ∧ w = [c]}

def lower : Language Char := range 'a' 'z'

def upper : Language Char := range 'A' 'Z'

def alphanumeric : Language Char := lower + upper + range '0' '9'

def slash : Language Char := {['/']}

def package : Language Char := lower * alphanumeric∗

def final : Language Char := alphanumeric * alphanumeric∗

def capitalised : Language Char := upper * alphanumeric∗

def path : Language Char := package * (slash * package)∗ * (slash * final)

-- ---------------------------------------------------------------------------
-- Characters and segments
-- ---------------------------------------------------------------------------

variable {c : Char} {w : List Char}

theorem isLower_iff : c.isLower = true ↔ 'a' ≤ c ∧ c ≤ 'z' := by
  show (decide _ && decide _) = true ↔ _
  rw [Bool.and_eq_true, decide_eq_true_eq, decide_eq_true_eq]
  rfl

theorem isUpper_iff : c.isUpper = true ↔ 'A' ≤ c ∧ c ≤ 'Z' := by
  show decide _ = true ↔ _
  rw [decide_eq_true_eq]
  rfl

theorem isDigit_iff : c.isDigit = true ↔ '0' ≤ c ∧ c ≤ '9' := by
  show (decide _ && decide _) = true ↔ _
  rw [Bool.and_eq_true, decide_eq_true_eq, decide_eq_true_eq]
  rfl

theorem isSegmentChar_iff :
    isSegmentChar c = true ↔ c.isUpper = true ∨ c.isLower = true ∨ c.isDigit = true := by
  show ((c.isUpper || c.isLower) || c.isDigit) = true ↔ _
  rw [Bool.or_eq_true, Bool.or_eq_true, or_assoc]

theorem isSegmentChar_of_isLower (h : c.isLower = true) : isSegmentChar c = true :=
  isSegmentChar_iff.mpr (.inr (.inl h))

theorem isSegmentChar_of_isUpper (h : c.isUpper = true) : isSegmentChar c = true :=
  isSegmentChar_iff.mpr (.inl h)

theorem not_isLower_of_isUpper (h : c.isUpper = true) : c.isLower = false := by
  refine Bool.eq_false_iff.mpr fun hl => ?_
  have hle : 'a' ≤ 'Z' := Char.le_trans (isLower_iff.mp hl).1 (isUpper_iff.mp h).2
  exact absurd hle (by decide)

theorem isLower_iff_toNat : c.isLower = true ↔ 97 ≤ c.toNat ∧ c.toNat ≤ 122 := by
  rw [isLower_iff, Char.le_def, Char.le_def, UInt32.le_iff_toNat_le, UInt32.le_iff_toNat_le]
  rfl

theorem toNat_lt_of_isSegmentChar (h : isSegmentChar c = true) : c.toNat < 0x80 := by
  refine Nat.lt_of_not_le fun hle => ?_
  rw [(isDelimiter_of_not_ascii hle).not_segment] at h
  cases h

theorem mem_lower : w ∈ lower ↔ ∃ c, c.isLower = true ∧ w = [c] := by
  simp only [isLower_iff]
  rfl

theorem mem_upper : w ∈ upper ↔ ∃ c, c.isUpper = true ∧ w = [c] := by
  simp only [isUpper_iff]
  rfl

theorem mem_alphanumeric : w ∈ alphanumeric ↔ ∃ c, isSegmentChar c = true ∧ w = [c] := by
  have hdigit : w ∈ range '0' '9' ↔ ∃ c, c.isDigit = true ∧ w = [c] := by
    simp only [isDigit_iff]
    rfl
  rw [alphanumeric, Language.mem_add, Language.mem_add, mem_lower, mem_upper, hdigit]
  simp only [isSegmentChar_iff, or_and_right, exists_or]
  rw [or_assoc, or_left_comm]

theorem mem_alphanumeric_kstar : w ∈ alphanumeric∗ ↔ ∀ c ∈ w, isSegmentChar c = true := by
  constructor
  · rintro ⟨parts, rfl, hparts⟩ c hc
    obtain ⟨part, hp, hc⟩ := List.mem_flatten.mp hc
    obtain ⟨x, hx, rfl⟩ := mem_alphanumeric.mp (hparts part hp)
    rwa [List.mem_singleton.mp hc]
  · intro h
    refine ⟨w.map fun c => [c], (List.flatMap_singleton' w).symm, ?_⟩
    intro part hp
    obtain ⟨c, hc, rfl⟩ := List.mem_map.mp hp
    exact mem_alphanumeric.mpr ⟨c, h c hc, rfl⟩

theorem mem_mul_alphanumeric {first : Language Char} {p : Char → Prop}
    (h : ∀ {w}, w ∈ first ↔ ∃ c, p c ∧ w = [c]) :
    w ∈ first * alphanumeric∗ ↔
      ∃ c cs, p c ∧ (∀ x ∈ cs, isSegmentChar x = true) ∧ w = c :: cs := by
  rw [Language.mem_mul]
  constructor
  · rintro ⟨x, hx, cs, hcs, rfl⟩
    obtain ⟨c, hc, rfl⟩ := h.mp hx
    exact ⟨c, cs, hc, mem_alphanumeric_kstar.mp hcs, rfl⟩
  · rintro ⟨c, cs, hc, hcs, rfl⟩
    exact ⟨[c], h.mpr ⟨c, hc, rfl⟩, cs, mem_alphanumeric_kstar.mpr hcs, rfl⟩

theorem mem_package : w ∈ package ↔
    ∃ c cs, c.isLower = true ∧ (∀ x ∈ cs, isSegmentChar x = true) ∧ w = c :: cs :=
  mem_mul_alphanumeric mem_lower

theorem mem_final : w ∈ final ↔
    ∃ c cs, isSegmentChar c = true ∧ (∀ x ∈ cs, isSegmentChar x = true) ∧ w = c :: cs :=
  mem_mul_alphanumeric mem_alphanumeric

theorem mem_capitalised : w ∈ capitalised ↔
    ∃ c cs, c.isUpper = true ∧ (∀ x ∈ cs, isSegmentChar x = true) ∧ w = c :: cs :=
  mem_mul_alphanumeric mem_upper

theorem cons_mem_package (hc : c.isLower = true) (hcs : cs.all isSegmentChar = true) :
    c :: cs ∈ package :=
  mem_package.mpr ⟨c, cs, hc, List.all_eq_true.mp hcs, rfl⟩

theorem cons_mem_capitalised (hc : c.isUpper = true) (hcs : cs.all isSegmentChar = true) :
    c :: cs ∈ capitalised :=
  mem_capitalised.mpr ⟨c, cs, hc, List.all_eq_true.mp hcs, rfl⟩

-- ---------------------------------------------------------------------------
-- Paths
-- ---------------------------------------------------------------------------

theorem path_eq : path = package * (slash * (final + path)) := by
  have hstar : (slash * package)∗ = 1 + slash * package * (slash * package)∗ :=
    (Language.one_add_self_mul_kstar_eq_kstar _).symm
  calc path
    _ = package * (1 + slash * package * (slash * package)∗) * (slash * final) := by
      rw [← hstar, path]
    _ = package * (slash * final) +
          package * (slash * (package * (slash * package)∗ * (slash * final))) := by
      simp only [mul_add, add_mul, mul_one, mul_assoc]
    _ = package * (slash * (final + path)) := by
      rw [← path, mul_add, mul_add]

theorem mem_path :
    w ∈ path ↔ ∃ s r, s ∈ package ∧ (r ∈ final ∨ r ∈ path) ∧ w = s ++ '/' :: r := by
  have hmul : w ∈ path ↔ w ∈ package * (slash * (final + path)) := by rw [← path_eq]
  rw [hmul, Language.mem_mul]
  constructor
  · rintro ⟨s, hs, x, hx, rfl⟩
    obtain ⟨y, hy, r, hr, rfl⟩ := Language.mem_mul.mp hx
    obtain rfl : y = ['/'] := hy
    exact ⟨s, r, hs, hr, rfl⟩
  · rintro ⟨s, r, hs, hr, rfl⟩
    refine ⟨s, hs, '/' :: r, ?_, rfl⟩
    exact Language.mem_mul.mpr ⟨['/'], rfl, r, hr, rfl⟩

/-- From the last two segments on, one package at a time. -/
@[elab_as_elim]
theorem path_induction {motive : (w : List Char) → w ∈ path → Prop}
    (last : ∀ s r (hs : s ∈ package) (hr : r ∈ final),
      motive (s ++ '/' :: r) (mem_path.mpr ⟨s, r, hs, .inl hr, rfl⟩))
    (more : ∀ s r (hs : s ∈ package) (hr : r ∈ path), motive r hr →
      motive (s ++ '/' :: r) (mem_path.mpr ⟨s, r, hs, .inr hr, rfl⟩))
    (hw : w ∈ path) : motive w hw := by
  generalize hn : w.length = n
  induction n using Nat.strongRecOn generalizing w with
  | ind n ih =>
    obtain ⟨s, r, hs, hr | hr, rfl⟩ := mem_path.mp hw
    · exact last s r hs hr
    · have hlt : r.length < n := by
        simp only [List.length_append, List.length_cons] at hn
        omega
      exact more s r hs hr (ih r.length hlt hr rfl)

theorem exists_segments_of_mem_path (hw : w ∈ path) :
    ∃ packages last, packages ≠ [] ∧ (∀ s ∈ packages, s ∈ package) ∧ last ∈ final ∧
      w = Text.joined '/' (packages ++ [last]) := by
  induction hw using path_induction with
  | last s r hs hr =>
    refine ⟨[s], r, by simp, by simpa using hs, hr, ?_⟩
    rw [List.singleton_append, Text.joined_cons_of_ne_nil '/' s (by simp), Text.joined,
      List.intercalate_singleton]
  | more s r hs hr ih =>
    obtain ⟨packages, last, hne, hpackages, hlast, rfl⟩ := ih
    refine ⟨s :: packages, last, by simp, List.forall_mem_cons.mpr ⟨hs, hpackages⟩, hlast, ?_⟩
    rw [List.cons_append, Text.joined_cons_of_ne_nil '/' s (by simp)]

theorem append_mem_path (hw : w ∈ path) (hc : isSegmentChar c = true) : w ++ [c] ∈ path := by
  induction hw using path_induction with
  | last s r hs hr =>
    obtain ⟨x, xs, hx, hxs, rfl⟩ := mem_final.mp hr
    refine mem_path.mpr ⟨s, x :: xs ++ [c], hs, .inl ?_, by simp⟩
    refine mem_final.mpr ⟨x, xs ++ [c], hx, ?_, rfl⟩
    exact List.forall_mem_append.mpr ⟨hxs, by simpa using hc⟩
  | more s r hs hr ih => exact mem_path.mpr ⟨s, r ++ [c], hs, .inr ih, by simp⟩

end Grammar

open Grammar

variable {c : Char} {xs p s text : List Char}

theorem not_isSegmentChar_slash : isSegmentChar '/' = false := by decide

theorem ne_slash_of_isSegmentChar (h : isSegmentChar c = true) : c ≠ '/' := by
  rintro rfl
  simp [not_isSegmentChar_slash] at h

theorem slash_not_mem_of_segment (h : ∀ x ∈ xs, isSegmentChar x = true) : '/' ∉ xs :=
  fun hx => ne_slash_of_isSegmentChar (h '/' hx) rfl

-- ---------------------------------------------------------------------------
-- What is read is a path
-- ---------------------------------------------------------------------------

theorem tail_isPrefix (inPackage : Bool) (cs : List Char) : tail inPackage cs <+: cs := by
  fun_induction tail inPackage cs with
  | case1 => exact List.prefix_rfl
  | case2 inPackage c cs hc ih => simpa [List.prefix_cons_inj] using ih
  | case3 => exact List.nil_prefix
  | case4 inPackage c cs hcs hc ih => simpa [List.prefix_cons_inj] using ih
  | case5 => exact List.nil_prefix

theorem pathAt_isPrefix (text : List Char) : pathAt text <+: text := by
  cases text with
  | nil => exact List.prefix_rfl
  | cons c cs =>
    simp only [pathAt]
    split
    · exact (List.prefix_cons_inj c).mpr (tail_isPrefix true cs)
    · exact List.nil_prefix

theorem tail_cases (inPackage : Bool) (cs : List Char) :
    (∀ x ∈ tail inPackage cs, isSegmentChar x = true) ∨
      inPackage = true ∧ ∃ xs r, (∀ x ∈ xs, isSegmentChar x = true) ∧ (r ∈ final ∨ r ∈ path) ∧
        tail inPackage cs = xs ++ '/' :: r := by
  fun_induction tail inPackage cs with
  | case1 => simp
  | case2 inPackage c cs hc ih =>
    obtain ⟨hin, hc⟩ := Bool.and_eq_true_iff.mp hc
    refine .inr ⟨hin, [], c :: tail c.isLower cs, by simp, ?_, rfl⟩
    rcases ih with hall | ⟨hlower, xs, r, hxs, hr, heq⟩
    · exact .inl (mem_final.mpr ⟨c, _, hc, hall, rfl⟩)
    · refine .inr (mem_path.mpr ⟨c :: xs, r, ?_, hr, by simp [heq]⟩)
      exact mem_package.mpr ⟨c, xs, hlower, hxs, rfl⟩
  | case3 => simp
  | case4 inPackage c cs hcs hc ih =>
    rcases ih with hall | ⟨hin, xs, r, hxs, hr, heq⟩
    · exact .inl (by simpa [hc] using hall)
    · exact .inr ⟨hin, c :: xs, r, by simpa [hc] using hxs, hr, by simp [heq]⟩
  | case5 => simp

theorem pathAt_mem_path (h : isPath (pathAt text) = true) : pathAt text ∈ path := by
  cases text with
  | nil => simp [pathAt, isPath] at h
  | cons c cs =>
    simp only [pathAt] at h ⊢
    split at h
    · rename_i hc
      rw [if_pos hc]
      have hslash : '/' ∈ c :: tail true cs := by simpa [isPath] using h
      rcases tail_cases true cs with hall | ⟨-, xs, r, hxs, hr, heq⟩
      · refine absurd hslash (slash_not_mem_of_segment fun x hx => ?_)
        rcases List.mem_cons.mp hx with rfl | hx
        · exact isSegmentChar_of_isLower hc
        · exact hall x hx
      · refine mem_path.mpr ⟨c :: xs, r, ?_, hr, by simp [heq]⟩
        exact mem_package.mpr ⟨c, xs, hc, hxs, rfl⟩
    · simp [isPath] at h

-- ---------------------------------------------------------------------------
-- No path is longer
-- ---------------------------------------------------------------------------

theorem tail_append_segment (h : ∀ x ∈ xs, isSegmentChar x = true) (inPackage : Bool)
    (cs : List Char) : tail inPackage (xs ++ cs) = xs ++ tail inPackage cs := by
  induction xs with
  | nil => rfl
  | cons x xs ih =>
    have hx : isSegmentChar x = true := h x List.mem_cons_self
    rw [List.cons_append, tail_cons_of_ne (ne_slash_of_isSegmentChar hx), if_pos hx,
      ih fun y hy => h y (List.mem_cons_of_mem _ hy), List.cons_append]

theorem tail_slash (h : isSegmentChar c = true) (cs : List Char) :
    tail true ('/' :: c :: cs) = '/' :: c :: tail c.isLower cs := by
  simp [tail, h]

theorem pathAt_append_package (hs : s ∈ package) (cs : List Char) :
    pathAt (s ++ cs) = s ++ tail true cs := by
  obtain ⟨c, xs, hc, hxs, rfl⟩ := mem_package.mp hs
  simp [pathAt, hc, tail_append_segment hxs]

theorem tail_slash_package (hs : s ∈ package) (cs : List Char) :
    tail true ('/' :: (s ++ cs)) = '/' :: pathAt (s ++ cs) := by
  obtain ⟨c, xs, hc, -, rfl⟩ := mem_package.mp hs
  rw [List.cons_append, tail_slash (isSegmentChar_of_isLower hc), pathAt, if_pos hc, hc]

theorem prefix_pathAt (hp : p ∈ path) (rest : List Char) : p <+: pathAt (p ++ rest) := by
  induction hp using path_induction with
  | last s r hs hr =>
    obtain ⟨c, cs, hc, hcs, rfl⟩ := mem_final.mp hr
    rw [List.append_assoc, pathAt_append_package hs, List.cons_append, List.cons_append,
      tail_slash hc, tail_append_segment hcs]
    exact (List.prefix_append_right_inj s).mpr (List.prefix_append ('/' :: c :: cs) _)
  | more s r hs hr ih =>
    obtain ⟨s', r', hs', -, rfl⟩ := mem_path.mp hr
    rw [List.append_assoc] at ih
    rw [List.append_assoc, pathAt_append_package hs, List.cons_append, List.append_assoc,
      tail_slash_package hs']
    exact (List.prefix_append_right_inj s).mpr ((List.prefix_cons_inj '/').mpr ih)

theorem slash_mem_of_mem_path (hp : p ∈ path) : '/' ∈ p := by
  obtain ⟨s, r, -, -, rfl⟩ := mem_path.mp hp
  simp

/-- A path starts at the head of a text exactly if what is read there has a slash. -/
theorem isPath_of_head (hp : p ∈ path) (h : p <+: text) :
    isPath (pathAt text) = true := by
  obtain ⟨rest, rfl⟩ := h
  have hslash := (prefix_pathAt hp rest).subset (slash_mem_of_mem_path hp)
  simpa [isPath] using hslash

end RefScan.Candidate
