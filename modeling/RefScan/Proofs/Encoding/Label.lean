import Mathlib.Data.List.TakeWhile
import RefScan.Encoding

/-!
# Which labels name the same encoding

Case, hyphens and underscores do not count in a label, but blanks at its ends are dropped before
the hyphens are. A blank with a hyphen outside of it therefore stays, and no encoding has a blank
in its name. Apart from such labels, what a label names depends only on what is left of it without
case, hyphens and underscores (`toOption_ofLabel`).
-/

namespace RefScan

namespace Text

variable {p : Char → Bool} {s m t : List Char}

theorem exists_trim (p : Char → Bool) (cs : List Char) :
    ∃ s t, cs = s ++ trim p cs ++ t ∧ (∀ c ∈ s, p c = true) ∧ ∀ c ∈ t, p c = true := by
  have hend : cs.dropWhile p =
      trim p cs ++ ((cs.dropWhile p).reverse.takeWhile p).reverse := by
    rw [trim, ← List.reverse_append, List.takeWhile_append_dropWhile, List.reverse_reverse]
  refine ⟨cs.takeWhile p, ((cs.dropWhile p).reverse.takeWhile p).reverse, ?_, ?_, ?_⟩
  · rw [List.append_assoc, ← hend, List.takeWhile_append_dropWhile]
  · exact fun c hc => List.mem_takeWhile_imp hc
  · exact fun c hc => List.mem_takeWhile_imp (List.mem_reverse.mp hc)

theorem trim_surrounded (hs : ∀ c ∈ s, p c = true) (ht : ∀ c ∈ t, p c = true)
    (hm : ∀ c ∈ m, p c = false) : trim p (s ++ m ++ t) = m := by
  have hrest : (m ++ t).dropWhile p = [] ∧ m = [] ∨ (m ++ t).dropWhile p = m ++ t := by
    cases m with
    | nil => exact .inl ⟨List.dropWhile_eq_nil_iff.mpr ht, rfl⟩
    | cons c m =>
      rw [List.cons_append, List.dropWhile_cons, if_neg (by simp [hm c List.mem_cons_self])]
      exact .inr rfl
  rw [trim, List.append_assoc, List.dropWhile_append_of_pos hs]
  rcases hrest with ⟨h, rfl⟩ | h
  · rw [h]
    rfl
  · have ht' : ∀ c ∈ t.reverse, p c = true := fun c hc => ht c (List.mem_reverse.mp hc)
    have hm' : m.reverse.dropWhile p = m.reverse := List.dropWhile_eq_self_iff.mpr fun hl =>
      Bool.eq_false_iff.mp (hm _ (List.mem_reverse.mp (List.getElem_mem hl)))
    rw [h, List.reverse_append, List.dropWhile_append_of_pos ht', hm', List.reverse_reverse]

theorem isBlank_toUpper (c : Char) : isBlank c.toUpper = isBlank c := by
  by_cases h : 'a'.val ≤ c.val ∧ c.val ≤ 'z'.val
  · have hletters : (List.range 26).all fun n =>
        isBlank (Char.ofNat (97 + n)).toUpper == isBlank (Char.ofNat (97 + n)) := by decide
    have hlow : 97 ≤ c.toNat := UInt32.le_iff_toNat_le.mp h.1
    have hhigh : c.toNat ≤ 122 := UInt32.le_iff_toNat_le.mp h.2
    have hc : Char.ofNat (97 + (c.toNat - 97)) = c := by
      rw [Nat.add_sub_cancel' hlow, Char.ofNat_toNat]
    have hletter := List.all_eq_true.mp hletters (c.toNat - 97) (List.mem_range.mpr (by omega))
    rwa [hc, beq_iff_eq] at hletter
  · rw [show c.toUpper = c from dif_neg h]

end Text

namespace Encoding

def folded (cs : List Char) : List Char :=
  (cs.filter fun c => !(c == '-' || c == '_')).map Char.toUpper

def hasInnerBlank (label : String) : Bool :=
  (Text.trim Text.isBlank label.toList).any Text.isBlank

/-- A label without case, hyphens and underscores and without blanks at its ends. -/
def bareName (label : String) : String :=
  String.ofList (Text.trim Text.isBlank (folded label.toList))

variable {cs : List Char} {label a b : String}

theorem normalForm_eq (label : String) :
    normalForm label = String.ofList (folded (Text.trim Text.isBlank label.toList)) := rfl

theorem folded_append (a b : List Char) : folded (a ++ b) = folded a ++ folded b := by
  simp [folded]

theorem any_isBlank_folded (cs : List Char) :
    (folded cs).any Text.isBlank = cs.any Text.isBlank := by
  induction cs with
  | nil => rfl
  | cons c cs ih =>
    rw [← List.singleton_append, folded_append, List.any_append, List.any_append, ih]
    congr 1
    by_cases hc : c = '-' ∨ c = '_'
    · rcases hc with rfl | rfl <;> rfl
    · simp [folded, not_or.mp hc, Text.isBlank_toUpper]

theorem blank_of_mem_folded (h : ∀ c ∈ cs, Text.isBlank c = true) :
    ∀ c ∈ folded cs, Text.isBlank c = true := by
  intro c hc
  obtain ⟨x, hx, rfl⟩ := List.mem_map.mp hc
  rw [Text.isBlank_toUpper]
  exact h x (List.mem_filter.mp hx).1

theorem not_blank_of_ofNormalForm? (h : ofNormalForm? name = some e) :
    name.toList.any Text.isBlank = false := by
  unfold ofNormalForm? at h
  split at h <;> first | rfl | cases h

theorem toOption_ofLabel_eq (label : String) :
    (ofLabel label).toOption = ofNormalForm? (normalForm label) := by
  unfold ofLabel
  cases ofNormalForm? (normalForm label) <;> rfl

/-- A label names what its bare name says, unless a blank is left in it. -/
theorem toOption_ofLabel (label : String) : (ofLabel label).toOption =
    if hasInnerBlank label then none else ofNormalForm? (bareName label) := by
  rw [toOption_ofLabel_eq]
  obtain ⟨s, t, hlabel, hs, ht⟩ := Text.exists_trim Text.isBlank label.toList
  split
  · rename_i h
    refine Option.eq_none_iff_forall_ne_some.mpr fun e he => ?_
    have hnone := not_blank_of_ofNormalForm? he
    rw [normalForm_eq, String.toList_ofList, any_isBlank_folded] at hnone
    exact absurd h (by simp [hasInnerBlank, hnone])
  · rename_i h
    have hcore : (folded (Text.trim Text.isBlank label.toList)).any Text.isBlank = false := by
      rw [any_isBlank_folded]
      simpa [hasInnerBlank] using h
    have htrim := Text.trim_surrounded (blank_of_mem_folded hs) (blank_of_mem_folded ht)
      fun c hc => Bool.eq_false_iff.mpr (List.any_eq_false.mp hcore c hc)
    rw [bareName, hlabel, folded_append, folded_append, htrim, normalForm_eq]

/-- Labels that differ only in case, hyphens and underscores name the same encoding or none. The
exception is exactly this: their bare name is that of an encoding, and a blank is left in one of
them alone, which then names nothing. -/
theorem ofLabel_alike_iff (a b : String) (h : folded a.toList = folded b.toList) :
    ((ofLabel a).toOption = (ofLabel b).toOption ↔
      hasInnerBlank a = hasInnerBlank b ∨ ofNormalForm? (bareName a) = none) ∧
    (hasInnerBlank a = true → (ofLabel a).toOption = none) := by
  have hname : bareName b = bareName a := by rw [bareName, bareName, h]
  rw [toOption_ofLabel, toOption_ofLabel, hname]
  constructor
  · cases hasInnerBlank a <;> cases hasInnerBlank b <;> simp [eq_comm]
  · exact fun hblank => if_pos hblank

theorem ofLabel_alike_inside_blanks :
    folded " u_tf-8\t".toList = folded " -Utf8_\t".toList ∧
      (ofLabel " u_tf-8\t").toOption = (ofLabel " -Utf8_\t").toOption ∧
      (ofLabel " -Utf8_\t").toOption = some .utf8 := by
  have h : folded " u_tf-8\t".toList = folded " -Utf8_\t".toList := by decide
  exact ⟨h, (ofLabel_alike_iff _ _ h).1.mpr (.inl (by decide)), by decide⟩

theorem ofLabel_hyphen_behind_blank :
    folded "utf8 -".toList = folded "utf8 ".toList ∧
      (ofLabel "utf8 -").toOption = none ∧ (ofLabel "utf8 ").toOption = some .utf8 := by
  exact ⟨by decide, by decide, by decide⟩

end Encoding

end RefScan
