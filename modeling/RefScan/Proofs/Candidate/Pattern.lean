import RefScan.Proofs.Candidate.Grammar

/-!
# Greedy patterns find the longest path

A backtracking search tries the matches of a pattern in a fixed order, in which a repetition first
goes on and only then stops, and takes the first match it comes to. In general that is not the
longest one. For the pattern of paths it is: what a repetition gives back is followed by a letter
or digit where a slash is due, so fewer segments are tried only after all matches with more of
them, and these leave less of the text (`rests_typePath_ordered`).
-/

open scoped Computability

namespace RefScan.Candidate

inductive Pattern where
  | oneOf (ranges : List (Char × Char))
  | seq (first second : Pattern)
  | star (body : Pattern)

namespace Pattern

def inRanges (ranges : List (Char × Char)) (c : Char) : Bool :=
  ranges.any fun r => r.1 ≤ c && c ≤ r.2

/-- What the matches at the head of a text leave of it, in the order in which they are tried. A
repetition ends with a round that takes nothing. -/
def rests : Pattern → List Char → List (List Char)
  | .oneOf _, [] => []
  | .oneOf ranges, c :: cs => if inRanges ranges c then [cs] else []
  | .seq a b, text => (a.rests text).flatMap fun r => b.rests r
  | .star a, text =>
    ((a.rests text).flatMap fun r => if r.length < text.length then (star a).rests r else []) ++
      [text]
termination_by p text => (p, text.length)

def first? (p : Pattern) (text : List Char) : Option (List Char) :=
  (p.rests text).head?.map fun r => text.take (text.length - r.length)

def findFrom (p : Pattern) (position : Nat) : List Char → Option (Nat × List Char)
  | [] => (p.first? []).map (position, ·)
  | c :: cs =>
    match p.first? (c :: cs) with
    | some found => some (position, found)
    | none => p.findFrom (position + 1) cs

def findAt (p : Pattern) (text : List Char) (position : Nat) : Option (Nat × List Char) :=
  p.findFrom position (text.drop position)

def language : Pattern → Language Char
  | .oneOf ranges => {w | ∃ c, inRanges ranges c = true ∧ w = [c]}
  | .seq a b => a.language * b.language
  | .star a => a.language∗

-- ---------------------------------------------------------------------------
-- Matches are words of the language
-- ---------------------------------------------------------------------------

variable {a b p : Pattern} {c : Char} {r text : List Char} {ranges : List (Char × Char)}

theorem mem_rests_star : r ∈ (star a).rests text ↔
    r = text ∨ ∃ x ∈ a.rests text, x.length < text.length ∧ r ∈ (star a).rests x := by
  rw [rests, List.mem_append, List.mem_flatMap, List.mem_singleton, or_comm]
  refine or_congr_right (exists_congr fun x => and_congr_right fun _ => ?_)
  split <;> simp_all

theorem mem_rests_star_of_kstar
    (ha : ∀ {text r}, r ∈ a.rests text ↔ ∃ w ∈ a.language, w ++ r = text)
    (parts : List (List Char)) (h : ∀ w ∈ parts, w ∈ a.language ∧ w ≠ []) (r : List Char) :
    r ∈ (star a).rests (parts.flatten ++ r) := by
  induction parts with
  | nil => exact mem_rests_star.mpr (.inl rfl)
  | cons w parts ih =>
    obtain ⟨hw, hne⟩ := h w List.mem_cons_self
    have hpos : 0 < w.length := List.length_pos_iff.mpr hne
    refine mem_rests_star.mpr (.inr ⟨parts.flatten ++ r, ?_, ?_, ?_⟩)
    · exact ha.mpr ⟨w, hw, by simp⟩
    · simp
      omega
    · exact ih fun x hx => h x (List.mem_cons_of_mem _ hx)

theorem kstar_of_mem_rests_star
    (ha : ∀ {text r}, r ∈ a.rests text ↔ ∃ w ∈ a.language, w ++ r = text)
    (h : r ∈ (star a).rests text) : ∃ w ∈ a.language∗, w ++ r = text := by
  generalize hn : text.length = n
  induction n using Nat.strongRecOn generalizing text with
  | ind n ih =>
    rcases mem_rests_star.mp h with rfl | ⟨x, hx, hlt, hr⟩
    · exact ⟨[], Language.nil_mem_kstar _, rfl⟩
    · obtain ⟨w, hw, rfl⟩ := ha.mp hx
      obtain ⟨v, ⟨parts, rfl, hparts⟩, rfl⟩ := ih x.length (hn ▸ hlt) hr rfl
      refine ⟨(w :: parts).flatten, Language.join_mem_kstar fun y hy => ?_, by simp⟩
      rcases List.mem_cons.mp hy with rfl | hy
      · exact hw
      · exact hparts y hy

/-- The search leaves out no match and makes up none. -/
theorem mem_rests : r ∈ p.rests text ↔ ∃ w ∈ p.language, w ++ r = text := by
  induction p generalizing text r with
  | oneOf ranges =>
    cases text with
    | nil =>
      simp only [rests, List.not_mem_nil, false_iff, not_exists, not_and]
      rintro w ⟨c, -, rfl⟩ h
      cases h
    | cons c cs =>
      constructor
      · intro h
        simp only [rests] at h
        split at h
        · rename_i hc
          obtain rfl := List.mem_singleton.mp h
          exact ⟨[c], ⟨c, hc, rfl⟩, rfl⟩
        · cases h
      · rintro ⟨w, ⟨x, hx, rfl⟩, h⟩
        obtain ⟨rfl, rfl⟩ := List.cons.inj h
        simp [rests, hx]
  | seq a b iha ihb =>
    rw [rests, List.mem_flatMap]
    constructor
    · rintro ⟨x, hx, hr⟩
      obtain ⟨w, hw, rfl⟩ := iha.mp hx
      obtain ⟨v, hv, rfl⟩ := ihb.mp hr
      exact ⟨w ++ v, Language.append_mem_mul hw hv, by simp⟩
    · rintro ⟨_, ⟨w, hw, v, hv, rfl⟩, rfl⟩
      exact ⟨v ++ r, iha.mpr ⟨w, hw, by simp⟩, ihb.mpr ⟨v, hv, rfl⟩⟩
  | star a ih =>
    constructor
    · exact kstar_of_mem_rests_star ih
    · rintro ⟨w, hw, rfl⟩
      obtain ⟨parts, rfl, hparts⟩ := Language.mem_kstar_iff_exists_nonempty.mp hw
      exact mem_rests_star_of_kstar ih parts hparts r

-- ---------------------------------------------------------------------------
-- The pattern of paths
-- ---------------------------------------------------------------------------

def lowercase : Pattern := .oneOf [('a', 'z')]

def alphanumeric : Pattern := .oneOf [('a', 'z'), ('A', 'Z'), ('0', '9')]

def slash : Pattern := .oneOf [('/', '/')]

def package : Pattern := .seq lowercase (.star alphanumeric)

def ending : Pattern := .seq slash (.seq alphanumeric (.star alphanumeric))

def continuation : Pattern := .seq (.star (.seq slash package)) ending

/-- Usually written `[a-z][a-zA-Z0-9]*(?:/[a-z][a-zA-Z0-9]*)*/[a-zA-Z0-9]+`. -/
def typePath : Pattern := .seq package continuation

theorem inRanges_lowercase : inRanges [('a', 'z')] c = c.isLower := by
  rw [Bool.eq_iff_iff, Grammar.isLower_iff]
  simp [inRanges]

theorem inRanges_alphanumeric :
    inRanges [('a', 'z'), ('A', 'Z'), ('0', '9')] c = isSegmentChar c := by
  rw [Bool.eq_iff_iff, Grammar.isSegmentChar_iff, Grammar.isLower_iff, Grammar.isUpper_iff,
    Grammar.isDigit_iff, or_left_comm]
  simp [inRanges]

theorem inRanges_slash : inRanges [('/', '/')] c = true ↔ c = '/' := by
  simp only [inRanges, List.any_cons, List.any_nil, Bool.or_false, Bool.and_eq_true,
    decide_eq_true_eq]
  exact ⟨fun h => Char.le_antisymm h.2 h.1, fun h => h ▸ ⟨Char.le_refl _, Char.le_refl _⟩⟩

theorem language_lowercase : lowercase.language = Grammar.lower := by
  refine Language.ext fun w => ?_
  rw [Grammar.mem_lower]
  simp only [← inRanges_lowercase]
  rfl

theorem language_alphanumeric : alphanumeric.language = Grammar.alphanumeric := by
  refine Language.ext fun w => ?_
  rw [Grammar.mem_alphanumeric]
  simp only [← inRanges_alphanumeric]
  rfl

theorem language_slash : slash.language = Grammar.slash := by
  refine Language.ext fun w => ?_
  show (∃ c, inRanges [('/', '/')] c = true ∧ w = [c]) ↔ w = ['/']
  simp only [inRanges_slash, exists_eq_left]

theorem language_typePath : typePath.language = Grammar.path := by
  simp only [typePath, continuation, ending, package, language, language_lowercase,
    language_alphanumeric, language_slash]
  rw [← Grammar.package, ← Grammar.final, Grammar.path, mul_assoc]

-- ---------------------------------------------------------------------------
-- The order of its matches
-- ---------------------------------------------------------------------------

def Ordered (rs : List (List Char)) : Prop := rs.Pairwise fun r r' => r.length ≤ r'.length

theorem rests_alphanumeric_star_cons (c : Char) (cs : List Char) :
    (star alphanumeric).rests (c :: cs) =
      (if isSegmentChar c then (star alphanumeric).rests cs else []) ++ [c :: cs] := by
  rw [rests, alphanumeric, rests, inRanges_alphanumeric]
  split <;> simp

theorem rests_alphanumeric_star_nil : (star alphanumeric).rests [] = [[]] := by
  rw [rests, alphanumeric, rests]
  rfl

theorem length_of_mem_alphanumeric_star (h : r ∈ (star alphanumeric).rests text) :
    (text.dropWhile isSegmentChar).length ≤ r.length ∧ r.length ≤ text.length := by
  induction text with
  | nil =>
    rw [rests_alphanumeric_star_nil, List.mem_singleton] at h
    simp [h]
  | cons c cs ih =>
    have hdrop : ((c :: cs).dropWhile isSegmentChar).length ≤ (c :: cs).length :=
      (List.dropWhile_sublist _).length_le
    rw [rests_alphanumeric_star_cons, List.mem_append, List.mem_singleton] at h
    rcases h with h | rfl
    · split at h
      · rename_i hc
        rw [List.dropWhile_cons_of_pos hc, List.length_cons]
        have := ih h
        omega
      · cases h
    · exact ⟨hdrop, Nat.le_refl _⟩

theorem alphanumeric_star_ordered (text : List Char) :
    Ordered ((star alphanumeric).rests text) := by
  induction text with
  | nil =>
    rw [rests_alphanumeric_star_nil]
    exact List.pairwise_singleton _ _
  | cons c cs ih =>
    rw [rests_alphanumeric_star_cons]
    refine List.pairwise_append.mpr ⟨?_, List.pairwise_singleton _ _, ?_⟩
    · split
      · exact ih
      · exact .nil
    · intro r hr r' hr'
      obtain rfl := List.mem_singleton.mp hr'
      split at hr
      · have := (length_of_mem_alphanumeric_star hr).2
        rw [List.length_cons]
        omega
      · cases hr

/-- If nothing matches behind a letter or digit, a repetition of these may give back none. -/
theorem flatMap_alphanumeric_star {f : List Char → List (List Char)}
    (hf : ∀ c cs, isSegmentChar c = true → f (c :: cs) = []) (text : List Char) :
    ((star alphanumeric).rests text).flatMap f = f (text.dropWhile isSegmentChar) := by
  induction text with
  | nil => simp [rests_alphanumeric_star_nil]
  | cons c cs ih =>
    rw [rests_alphanumeric_star_cons, List.flatMap_append]
    by_cases hc : isSegmentChar c = true
    · simp [hc, ih, hf]
    · simp [hc]

theorem rests_package_flatMap {f : List Char → List (List Char)}
    (hf : ∀ c cs, isSegmentChar c = true → f (c :: cs) = []) (c : Char) (cs : List Char) :
    (package.rests (c :: cs)).flatMap f =
      if c.isLower then f (cs.dropWhile isSegmentChar) else [] := by
  rw [package, rests, lowercase, rests, inRanges_lowercase]
  split
  · simp [flatMap_alphanumeric_star hf]
  · rfl

theorem rests_oneOf_seq_nil (ranges : List (Char × Char)) (p : Pattern) :
    (seq (oneOf ranges) p).rests [] = [] := by
  rw [rests, rests]
  rfl

theorem rests_slash_seq_of_ne (h : c ≠ '/') (p : Pattern) (cs : List Char) :
    (seq slash p).rests (c :: cs) = [] := by
  rw [rests, slash, rests, if_neg (mt inRanges_slash.mp h)]
  rfl

theorem rests_slash_seq (p : Pattern) (cs : List Char) :
    (seq slash p).rests ('/' :: cs) = p.rests cs := by
  rw [rests, slash, rests, if_pos (inRanges_slash.mpr rfl)]
  simp

theorem rests_star_seq (a b : Pattern) (text : List Char) :
    (seq (star a) b).rests text = ((a.rests text).flatMap fun r =>
      if r.length < text.length then (seq (star a) b).rests r else []) ++ b.rests text := by
  rw [rests, rests, List.flatMap_append, List.flatMap_assoc]
  congr 1
  · refine List.flatMap_congr fun r _ => ?_
    split
    · rw [rests]
    · rfl
  · simp

theorem rests_continuation_of_ne (h : c ≠ '/') (cs : List Char) :
    continuation.rests (c :: cs) = [] := by
  rw [continuation, rests_star_seq, rests_slash_seq_of_ne h, ending, rests_slash_seq_of_ne h]
  rfl

theorem rests_continuation_nil : continuation.rests [] = [] := by
  rw [continuation, rests_star_seq, ending, slash, rests_oneOf_seq_nil, rests_oneOf_seq_nil]
  rfl

theorem rests_continuation_slash : continuation.rests ['/'] = [] := by
  rw [continuation, rests_star_seq, rests_slash_seq, package, lowercase, rests_oneOf_seq_nil,
    ending, rests_slash_seq, alphanumeric, rests_oneOf_seq_nil]
  rfl

theorem rests_continuation (c : Char) (cs : List Char) :
    continuation.rests ('/' :: c :: cs) =
      (if c.isLower then continuation.rests (cs.dropWhile isSegmentChar) else []) ++
        if isSegmentChar c then (star alphanumeric).rests cs else [] := by
  have hshort : ∀ r ∈ package.rests (c :: cs), r.length < ('/' :: c :: cs).length := by
    intro r hr
    obtain ⟨w, -, hw⟩ := mem_rests.mp hr
    have := congrArg List.length hw
    simp only [List.length_append, List.length_cons] at this ⊢
    omega
  have hending : ending.rests ('/' :: c :: cs) =
      if isSegmentChar c then (star alphanumeric).rests cs else [] := by
    rw [ending, rests_slash_seq, rests, alphanumeric, rests, inRanges_alphanumeric]
    split <;> simp
  rw [continuation, rests_star_seq, ← continuation, hending, rests_slash_seq]
  congr 1
  rw [← rests_package_flatMap fun x xs hx =>
    rests_continuation_of_ne (ne_slash_of_isSegmentChar hx) xs]
  exact List.flatMap_congr fun r hr => if_pos (hshort r hr)

theorem rests_continuation_ordered (text : List Char) :
    Ordered (continuation.rests text) ∧ ∀ r ∈ continuation.rests text, r.length < text.length := by
  generalize hn : text.length = n
  induction n using Nat.strongRecOn generalizing text with
  | ind n ih =>
    rcases text with _ | ⟨x, text⟩
    · rw [rests_continuation_nil]
      exact ⟨.nil, by simp⟩
    by_cases hx : x = '/'
    swap
    · rw [rests_continuation_of_ne hx]
      exact ⟨.nil, by simp⟩
    subst hx
    rcases text with _ | ⟨c, cs⟩
    · rw [rests_continuation_slash]
      exact ⟨.nil, by simp⟩
    have hdrop : (cs.dropWhile isSegmentChar).length ≤ cs.length :=
      (List.dropWhile_sublist _).length_le
    simp only [List.length_cons] at hn
    obtain ⟨hordered, hshort⟩ := ih (cs.dropWhile isSegmentChar).length (by omega) _ rfl
    rw [rests_continuation]
    constructor
    · refine List.pairwise_append.mpr ⟨?_, ?_, ?_⟩
      · split
        · exact hordered
        · exact .nil
      · split
        · exact alphanumeric_star_ordered cs
        · exact .nil
      · -- one package more reaches beyond this segment, which the others end in
        intro r hr r' hr'
        split at hr
        · split at hr'
          · have := hshort r hr
            have := (length_of_mem_alphanumeric_star hr').1
            omega
          · cases hr'
        · cases hr
    · intro r hr
      rcases List.mem_append.mp hr with hr | hr
      · split at hr
        · have := hshort r hr
          omega
        · cases hr
      · split at hr
        · have := (length_of_mem_alphanumeric_star hr).2
          omega
        · cases hr

theorem rests_typePath_ordered (text : List Char) : Ordered (typePath.rests text) := by
  rw [typePath, rests]
  cases text with
  | nil =>
    rw [package, lowercase, rests_oneOf_seq_nil]
    exact .nil
  | cons c cs =>
    have hpackage := rests_package_flatMap (f := continuation.rests)
      (fun x xs hx => rests_continuation_of_ne (ne_slash_of_isSegmentChar hx) xs) c cs
    rw [hpackage]
    split
    · exact (rests_continuation_ordered _).1
    · exact .nil

end Pattern

end RefScan.Candidate
