import RefScan.Candidate
import RefScan.Proofs.Text.Offset

/-!
# Paths do not cross delimiters

No path contains a character that is neither a segment character nor a slash. Such a delimiter
cuts a text in two that can be searched on their own (`occurrencesFrom_append_delimiter`), so how
many delimiters stand in a row does not matter, nor which they are (`mem_ofText_delimited`).
-/

namespace RefScan

namespace Candidate

structure IsDelimiter (c : Char) : Prop where
  not_segment : isSegmentChar c = false
  ne_slash : c ≠ '/'

instance (c : Char) : Decidable (IsDelimiter c) :=
  decidable_of_iff (isSegmentChar c = false ∧ c ≠ '/')
    ⟨fun h => ⟨h.1, h.2⟩, fun h => ⟨h.not_segment, h.ne_slash⟩⟩

theorem IsDelimiter.not_isLower (h : IsDelimiter c) : c.isLower = false := by
  have hs : ((c.isUpper || c.isLower) || c.isDigit) = false := h.not_segment
  simp only [Bool.or_eq_false_iff] at hs
  exact hs.1.2

theorem isDelimiter_of_not_ascii (h : 0x80 ≤ c.toNat) : IsDelimiter c where
  not_segment := by
    have hbeyond {high : Char} (hhigh : high.toNat < 0x80) : ¬ c.val ≤ high.val := by
      rw [UInt32.le_iff_toNat_le, Char.toNat_val, Char.toNat_val]
      omega
    have hupper : c.isUpper = false := decide_eq_false fun hc => hbeyond (by decide) hc.2
    have hlower : c.isLower = false :=
      Bool.and_eq_false_imp.mpr fun _ => decide_eq_false (hbeyond (by decide))
    have hdigit : c.isDigit = false :=
      Bool.and_eq_false_imp.mpr fun _ => decide_eq_false (hbeyond (by decide))
    show ((c.isUpper || c.isLower) || c.isDigit) = false
    rw [hupper, hlower, hdigit]
    rfl
  ne_slash := by
    rintro rfl
    simp at h

theorem tail_cons_of_ne (h : c ≠ '/') (inPackage : Bool) (cs : List Char) :
    tail inPackage (c :: cs) = if isSegmentChar c then c :: tail inPackage cs else [] := by
  rw [tail]
  rintro _ _ rfl
  exact absurd rfl h

theorem tail_append_delimiter (hd : IsDelimiter d) (inPackage : Bool) (u v : List Char) :
    tail inPackage (u ++ d :: v) = tail inPackage u := by
  fun_induction tail inPackage u with
  | case1 inPackage => simp [tail_cons_of_ne hd.ne_slash, hd.not_segment]
  | case2 inPackage c cs hc ih => simp [tail, hc, ih]
  | case3 inPackage c cs hc => simp [tail, hc]
  | case4 inPackage c cs hcs hc ih =>
    have hne : c ≠ '/' := by
      rintro rfl
      simp [isSegmentChar] at hc
    rw [List.cons_append, tail_cons_of_ne hne, if_pos hc, ih]
  | case5 inPackage c cs hcs hc =>
    by_cases hne : c = '/'
    · -- a slash at the end of the first part has nothing to belong to
      cases cs with
      | nil => simp [hne, tail, hd.not_segment]
      | cons c' cs' => exact (hcs c' cs' hne rfl).elim
    · rw [List.cons_append, tail_cons_of_ne hne, if_neg hc]

theorem pathAt_append_delimiter (hd : IsDelimiter d) (u v : List Char) :
    pathAt (u ++ d :: v) = pathAt u := by
  cases u with
  | nil => simp [pathAt, hd.not_isLower]
  | cons c cs => simp [pathAt, tail_append_delimiter hd]

theorem length_tail_le (inPackage : Bool) (cs : List Char) :
    (tail inPackage cs).length ≤ cs.length := by
  fun_induction tail inPackage cs <;> simp_all

theorem length_pathAt_le (c : Char) (cs : List Char) :
    (pathAt (c :: cs)).length ≤ cs.length + 1 := by
  simp only [pathAt]
  split
  · exact Nat.succ_le_succ (length_tail_le true cs)
  · exact Nat.zero_le _

/-- The paths before a delimiter and those behind it. The search passes over no more than what is
left of the first part. -/
theorem occurrencesFrom_append_delimiter (hd : IsDelimiter d) (offset : Nat) {skip : Nat}
    (u v : List Char) (hskip : skip ≤ u.length) :
    occurrencesFrom offset skip (u ++ d :: v) = occurrencesFrom offset skip u ++
      occurrencesFrom (offset + (Text.utf8 (u ++ [d])).length) 0 v := by
  induction u generalizing offset skip with
  | nil =>
    obtain rfl : skip = 0 := Nat.le_zero.mp hskip
    simp [occurrencesFrom, pathAt, hd.not_isLower, isPath, Text.utf8]
  | cons c cs ih =>
    have hoffset : offset + (Text.utf8 (c :: cs ++ [d])).length =
        offset + c.utf8Size + (Text.utf8 (cs ++ [d])).length := by
      rw [List.cons_append, Text.length_utf8_cons, Nat.add_assoc]
    have hlen : (pathAt (c :: cs)).length - 1 ≤ cs.length := by
      have := length_pathAt_le c cs
      omega
    have hpath : pathAt (c :: (cs ++ d :: v)) = pathAt (c :: cs) :=
      pathAt_append_delimiter hd (c :: cs) v
    rw [hoffset, List.cons_append]
    cases skip with
    | succ skip =>
      simp only [occurrencesFrom]
      exact ih _ (Nat.le_of_succ_le_succ hskip)
    | zero =>
      simp only [occurrencesFrom, hpath]
      by_cases hp : isPath (pathAt (c :: cs))
      · simp only [hp, if_true, List.cons_append]
        rw [ih]
        split
        · exact Nat.zero_le _
        · exact hlen
      · simp only [hp]
        exact ih _ hlen

theorem map_path_occurrencesFrom (offset offset' skip : Nat) (text : List Char) :
    (occurrencesFrom offset skip text).map Occurrence.path =
      (occurrencesFrom offset' skip text).map Occurrence.path := by
  induction text generalizing offset offset' skip with
  | nil => rfl
  | cons c cs ih =>
    cases skip with
    | succ skip =>
      simp only [occurrencesFrom]
      exact ih _ _ _
    | zero =>
      simp only [occurrencesFrom]
      by_cases hp : isPath (pathAt (c :: cs))
      · simp only [hp, if_true, List.map_cons, List.cons.injEq, true_and]
        exact ih _ _ _
      · simp only [hp]
        exact ih _ _ _

end Candidate

namespace Candidates

open Candidate

theorem mem_ofText : name ∈ ofText text ↔ ∃ o ∈ occurrences text, o.typeName? = some name := by
  rw [ofText, Std.ExtTreeSet.mem_ofList, List.contains_iff_mem, List.mem_filterMap]

theorem exists_typeName_iff (offset : Nat) (text : List Char) :
    (∃ o ∈ occurrencesFrom offset 0 text, o.typeName? = some name) ↔ name ∈ ofText text := by
  have hpath (os : List Occurrence) : (∃ o ∈ os, o.typeName? = some name) ↔
      ∃ p ∈ os.map Occurrence.path, (⟨0, p⟩ : Occurrence).typeName? = some name := by
    constructor
    · rintro ⟨o, ho, hn⟩
      exact ⟨o.path, List.mem_map.mpr ⟨o, ho, rfl⟩, hn⟩
    · rintro ⟨p, hp, hn⟩
      obtain ⟨o, ho, rfl⟩ := List.mem_map.mp hp
      exact ⟨o, ho, hn⟩
  rw [mem_ofText, occurrences, hpath, hpath, map_path_occurrencesFrom offset 0]

theorem mem_ofText_append_delimiter (hd : IsDelimiter d) (u v : List Char) :
    name ∈ ofText (u ++ d :: v) ↔ name ∈ ofText u ∨ name ∈ ofText v := by
  rw [mem_ofText, occurrences, occurrencesFrom_append_delimiter hd 0 u v (Nat.zero_le _)]
  simp only [List.mem_append, or_and_right, exists_or, exists_typeName_iff]

theorem not_mem_ofText_nil : name ∉ ofText [] := by
  simp [mem_ofText, occurrences, occurrencesFrom]

theorem mem_ofText_delimiters_append (hds : ∀ d ∈ ds, IsDelimiter d) (v : List Char) :
    name ∈ ofText (ds ++ v) ↔ name ∈ ofText v := by
  induction ds with
  | nil => rfl
  | cons d ds ih =>
    have hd := hds d List.mem_cons_self
    rw [List.cons_append, ← List.nil_append (d :: _), mem_ofText_append_delimiter hd,
      ih fun x hx => hds x (List.mem_cons_of_mem _ hx)]
    exact or_iff_right not_mem_ofText_nil

theorem mem_ofText_delimited (hne : ds ≠ []) (hds : ∀ d ∈ ds, IsDelimiter d) (u v : List Char) :
    name ∈ ofText (u ++ (ds ++ v)) ↔ name ∈ ofText u ∨ name ∈ ofText v := by
  obtain ⟨d, ds, rfl⟩ := List.exists_cons_of_ne_nil hne
  rw [List.cons_append, mem_ofText_append_delimiter (hds d List.mem_cons_self),
    mem_ofText_delimiters_append fun x hx => hds x (List.mem_cons_of_mem _ hx)]

end Candidates

end RefScan
