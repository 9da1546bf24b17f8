import RefScan.Proofs.Candidate.Pattern

/-!
# Which names a text contributes

The search of a text, told by positions and membership in the language of paths: from each position
on it takes the leftmost path, and of those that start there the longest (`LeftmostLongest`), and it
contributes the names of the ones that stand for types (`Contributes`). That is what `ofText`
collects, and what a backtracking search for the pattern of paths comes to
(`mem_ofText_iff_contributes`).
-/

namespace RefScan.Candidate

open Grammar (path)

structure LongestAt (text p : List Char) : Prop where
  mem : p ∈ path
  head : p <+: text
  longest : ∀ {p'}, p' ∈ path → p' <+: text → p'.length ≤ p.length

/-- From `a` on, the first path starts at `s`, and `p` is the longest one there. -/
structure LeftmostLongest (text : List Char) (a s : Nat) (p : List Char) : Prop where
  le : a ≤ s
  longest : LongestAt (text.drop s) p
  leftmost : ∀ {s' p'}, a ≤ s' → s' < s → p' ∈ path → ¬ p' <+: text.drop s'

def EndsCapitalised (p : List Char) : Prop :=
  ∃ front c last, p = front ++ '/' :: c :: last ∧ '/' ∉ c :: last ∧ 'A' ≤ c ∧ c ≤ 'Z'

/-- The names that a search from a position on contributes. Behind an `L` in second place it goes on
at the second character of the path, else behind the path. -/
inductive Contributes (text : List Char) : Nat → String → Prop
  | found {a s p} : LeftmostLongest text a s p → p[1]? ≠ some 'L' → EndsCapitalised p →
      Contributes text a (String.ofList (Text.replace '/' '.' p))
  | glued {a s p name} : LeftmostLongest text a s p → p[1]? = some 'L' →
      Contributes text (s + 1) name → Contributes text a name
  | behind {a s p name} : LeftmostLongest text a s p → p[1]? ≠ some 'L' →
      Contributes text (s + p.length) name → Contributes text a name

variable {text p : List Char} {a s i : Nat} {name : String}

-- ---------------------------------------------------------------------------
-- Leftmost longest paths
-- ---------------------------------------------------------------------------

theorem length_pos_of_mem_path (hp : p ∈ path) : 0 < p.length :=
  List.length_pos_of_mem (slash_mem_of_mem_path hp)

theorem three_le_length_of_mem_path (hp : p ∈ Grammar.path) : 3 ≤ p.length := by
  obtain ⟨s, r, hs, hr, rfl⟩ := Grammar.mem_path.mp hp
  obtain ⟨c, cs, -, -, rfl⟩ := Grammar.mem_package.mp hs
  have hpos : 0 < r.length := by
    rcases hr with hr | hr
    · obtain ⟨x, xs, -, -, rfl⟩ := Grammar.mem_final.mp hr
      simp
    · exact length_pos_of_mem_path hr
  simp only [List.length_append, List.length_cons]
  omega

theorem LongestAt.unique (h : LongestAt text p) (h' : LongestAt text p') : p = p' := by
  have hle := h'.longest h.mem h.head
  have hge := h.longest h'.mem h'.head
  exact (List.prefix_of_prefix_length_le h.head h'.head hle).eq_of_length (by omega)

theorem longestAt_pathAt (h : isPath (pathAt text) = true) : LongestAt text (pathAt text) := by
  refine ⟨pathAt_mem_path h, pathAt_isPrefix text, fun hp hhead => ?_⟩
  obtain ⟨rest, rfl⟩ := hhead
  exact (prefix_pathAt hp rest).length_le

theorem LeftmostLongest.unique (h : LeftmostLongest text a s p)
    (h' : LeftmostLongest text a s' p') : s = s' ∧ p = p' := by
  have hle : s ≤ s' := Nat.le_of_not_lt fun hlt =>
    h.leftmost h'.le hlt h'.longest.mem h'.longest.head
  have hge : s' ≤ s := Nat.le_of_not_lt fun hlt =>
    h'.leftmost h.le hlt h.longest.mem h.longest.head
  obtain rfl := Nat.le_antisymm hle hge
  exact ⟨rfl, h.longest.unique h'.longest⟩

theorem LongestAt.leftmostLongest (h : LongestAt (text.drop a) p) : LeftmostLongest text a a p :=
  ⟨Nat.le_refl a, h, fun hle hlt => absurd hle (by omega)⟩

theorem LeftmostLongest.lt_length (h : LeftmostLongest text a s p) : a < text.length := by
  have hlen := h.longest.head.length_le
  have hpos := length_pos_of_mem_path h.longest.mem
  have hle := h.le
  rw [List.length_drop] at hlen
  omega

/-- Positions at which no path starts can be passed over. -/
theorem leftmostLongest_add_iff (hnone : ∀ j < k, ∀ p' ∈ path, ¬ p' <+: text.drop (a + j)) :
    LeftmostLongest text (a + k) s p ↔ LeftmostLongest text a s p := by
  have hpassed {s' p' : _} (hle : a ≤ s') (hlt : s' < a + k) (hp : p' ∈ path) :
      ¬ p' <+: text.drop s' := by
    have h := hnone (s' - a) (by omega) p' hp
    rwa [Nat.add_sub_cancel' hle] at h
  constructor
  · intro h
    refine ⟨Nat.le_trans (Nat.le_add_right a k) h.le, h.longest, fun {s' p'} hle hlt hp => ?_⟩
    by_cases hk : s' < a + k
    · exact hpassed hle hk hp
    · exact h.leftmost (Nat.le_of_not_lt hk) hlt hp
  · intro h
    have hle : a + k ≤ s := Nat.le_of_not_lt fun hlt =>
      hpassed h.le hlt h.longest.mem h.longest.head
    exact ⟨hle, h.longest, fun hle' => h.leftmost (Nat.le_trans (Nat.le_add_right a k) hle')⟩

-- ---------------------------------------------------------------------------
-- Contributions
-- ---------------------------------------------------------------------------

theorem contributes_add_iff (hnone : ∀ j < k, ∀ p' ∈ path, ¬ p' <+: text.drop (a + j)) :
    Contributes text (a + k) name ↔ Contributes text a name := by
  have hsame {s : Nat} {p : List Char} : LeftmostLongest text (a + k) s p ↔
      LeftmostLongest text a s p := leftmostLongest_add_iff hnone
  constructor
  · intro h
    cases h with
    | found hl hg ht => exact .found (hsame.mp hl) hg ht
    | glued hl hg h => exact .glued (hsame.mp hl) hg h
    | behind hl hg h => exact .behind (hsame.mp hl) hg h
  · intro h
    cases h with
    | found hl hg ht => exact .found (hsame.mpr hl) hg ht
    | glued hl hg h => exact .glued (hsame.mpr hl) hg h
    | behind hl hg h => exact .behind (hsame.mpr hl) hg h

theorem Contributes.lt_length (h : Contributes text a name) : a < text.length := by
  cases h with
  | found hl => exact hl.lt_length
  | glued hl => exact hl.lt_length
  | behind hl => exact hl.lt_length

theorem contributes_iff_of_glued (hl : LeftmostLongest text a s p) (hg : p[1]? = some 'L') :
    Contributes text a name ↔ Contributes text (s + 1) name := by
  refine ⟨fun h => ?_, .glued hl hg⟩
  cases h with
  | found hl' hg' =>
    obtain ⟨rfl, rfl⟩ := hl.unique hl'
    exact absurd hg hg'
  | glued hl' _ h =>
    obtain ⟨rfl, rfl⟩ := hl.unique hl'
    exact h
  | behind hl' hg' =>
    obtain ⟨rfl, rfl⟩ := hl.unique hl'
    exact absurd hg hg'

theorem contributes_iff_of_not_glued (hl : LeftmostLongest text a s p) (hg : p[1]? ≠ some 'L') :
    Contributes text a name ↔
      (EndsCapitalised p ∧ name = String.ofList (Text.replace '/' '.' p)) ∨
        Contributes text (s + p.length) name := by
  constructor
  · intro h
    cases h with
    | found hl' _ ht =>
      obtain ⟨rfl, rfl⟩ := hl.unique hl'
      exact .inl ⟨ht, rfl⟩
    | glued hl' hg' =>
      obtain ⟨rfl, rfl⟩ := hl.unique hl'
      exact absurd hg' hg
    | behind hl' _ h =>
      obtain ⟨rfl, rfl⟩ := hl.unique hl'
      exact .inr h
  · rintro (⟨ht, rfl⟩ | h)
    · exact .found hl hg ht
    · exact .behind hl hg h

-- ---------------------------------------------------------------------------
-- Occurrences
-- ---------------------------------------------------------------------------

theorem lastSegment_append (front : List Char) (hlast : '/' ∉ last) (start : Nat) :
    (⟨start, front ++ '/' :: last⟩ : Occurrence).lastSegment = last := by
  simp [Occurrence.lastSegment, Text.fields_append_cons, Text.fields_of_not_mem hlast]

theorem isType_iff_endsCapitalised {o : Occurrence} (hp : o.path ∈ path) :
    o.isType = true ↔ EndsCapitalised o.path := by
  obtain ⟨start, p⟩ := o
  constructor
  · intro h
    obtain ⟨packages, last, hne, -, hlast, rfl⟩ := Grammar.exists_segments_of_mem_path hp
    obtain ⟨c, cs, hc, hcs, rfl⟩ := Grammar.mem_final.mp hlast
    have hslash : '/' ∉ c :: cs := slash_not_mem_of_segment (List.forall_mem_cons.mpr ⟨hc, hcs⟩)
    have hjoined := Text.joined_append_singleton '/' hne (c :: cs)
    rw [Occurrence.isType, hjoined, lastSegment_append _ hslash] at h
    exact ⟨Text.joined '/' packages, c, cs, hjoined, hslash, Grammar.isUpper_iff.mp h⟩
  · rintro ⟨front, c, cs, rfl, hslash, hc⟩
    rw [Occurrence.isType, lastSegment_append front hslash]
    exact Grammar.isUpper_iff.mpr hc

theorem isGlued_iff {o : Occurrence} : o.isGlued = true ↔ o.path[1]? = some 'L' := by
  obtain ⟨start, p⟩ := o
  rcases p with _ | ⟨x, _ | ⟨y, p⟩⟩ <;> simp [Occurrence.isGlued]

theorem typeName?_iff_of_glued {o : Occurrence} (h : o.isGlued = true) :
    ¬ o.typeName? = some name := by
  simp [Occurrence.typeName?, h]

theorem typeName?_iff_of_not_glued {o : Occurrence} (hp : o.path ∈ path)
    (h : o.isGlued = false) : o.typeName? = some name ↔
      EndsCapitalised o.path ∧ name = String.ofList (Text.replace '/' '.' o.path) := by
  rw [← isType_iff_endsCapitalised hp]
  simp [Occurrence.typeName?, h, @eq_comm _ name]

/-- Where what is read has no slash, no path starts at any of its characters. -/
theorem no_path_in_run (h : isPath (pathAt (c :: cs)) = false)
    (hj : j < (pathAt (c :: cs)).length - 1 + 1) (hp : p ∈ path) :
    ¬ p <+: (c :: cs).drop j := by
  intro hhead
  have hslash : '/' ∉ pathAt (c :: cs) := by simpa [isPath] using h
  by_cases hc : c.isLower = true
  · have hread : pathAt (c :: cs) = c :: tail true cs := by simp [pathAt, hc]
    rw [hread] at hslash hj
    obtain ⟨rest, hrest⟩ := tail_isPrefix true cs
    have hall : ∀ x ∈ tail true cs, isSegmentChar x = true := by
      rcases tail_cases true cs with hall | ⟨-, xs, r, -, -, heq⟩
      · exact hall
      · simp [heq] at hslash
    -- nothing follows the run that could make a path of it
    have hstop : tail true rest = [] := by
      have heq := tail_append_segment hall true rest
      rwa [hrest, List.self_eq_append_right] at heq
    have hrun : (c :: cs).drop j = (c :: tail true cs).drop j ++ rest := by
      rw [← List.drop_append_of_le_length (by simp at hj ⊢; omega), List.cons_append, hrest]
    have hne : (c :: tail true cs).drop j ≠ [] := by
      simp only [List.length_cons] at hj
      simp only [ne_eq, List.drop_eq_nil_iff, List.length_cons]
      omega
    obtain ⟨y, ys, hys⟩ := List.exists_cons_of_ne_nil hne
    have hsub : ∀ x ∈ y :: ys, isSegmentChar x = true := by
      intro x hx
      rw [← hys] at hx
      rcases List.mem_cons.mp (List.mem_of_mem_drop hx) with rfl | hx
      · exact Grammar.isSegmentChar_of_isLower hc
      · exact hall x hx
    have hpath := isPath_of_head hp hhead
    rw [hrun, hys, List.cons_append] at hpath
    simp only [pathAt, tail_append_segment fun x hx => hsub x (List.mem_cons_of_mem _ hx), hstop,
      List.append_nil] at hpath
    split at hpath
    · exact slash_not_mem_of_segment hsub (by simpa [isPath] using hpath)
    · simp [isPath] at hpath
  · obtain rfl : j = 0 := by simpa [pathAt, hc] using hj
    rw [List.drop_zero] at hhead
    rw [isPath_of_head hp hhead] at h
    cases h

theorem exists_typeName_iff_contributes (h : text.drop i = cs) (offset skip : Nat) :
    (∃ o ∈ occurrencesFrom offset skip cs, o.typeName? = some name) ↔
      Contributes text (i + skip) name := by
  induction cs generalizing i offset skip with
  | nil =>
    have hend : ¬ Contributes text (i + skip) name := fun hc => by
      have := hc.lt_length
      have := List.drop_eq_nil_iff.mp h
      omega
    simp [occurrencesFrom, hend]
  | cons c cs ih =>
    have hnext : text.drop (i + 1) = cs := by rw [← List.drop_drop, h]; rfl
    cases skip with
    | succ skip =>
      rw [occurrencesFrom, ih hnext, Nat.add_right_comm i 1 skip]
      rfl
    | zero =>
      rw [occurrencesFrom, Nat.add_zero]
      split
      · rename_i hpath
        have hlongest : LongestAt (text.drop i) (pathAt (c :: cs)) := by
          rw [h]
          exact longestAt_pathAt hpath
        have hleft := hlongest.leftmostLongest
        have hlen := length_pos_of_mem_path hlongest.mem
        simp only [List.mem_cons, exists_eq_or_imp]
        rw [ih hnext]
        cases hglued : (⟨offset, pathAt (c :: cs)⟩ : Occurrence).isGlued with
        | true =>
          rw [contributes_iff_of_glued hleft (isGlued_iff.mp hglued)]
          exact or_iff_right (typeName?_iff_of_glued hglued)
        | false =>
          have hnot : ¬ (pathAt (c :: cs))[1]? = some 'L' := fun heq => by
            rw [isGlued_iff.mpr heq] at hglued
            cases hglued
          have hresume : i + 1 + ((pathAt (c :: cs)).length - 1) =
              i + (pathAt (c :: cs)).length := by omega
          rw [contributes_iff_of_not_glued hleft hnot,
            typeName?_iff_of_not_glued hlongest.mem hglued]
          simp only [Bool.false_eq_true, if_false, hresume]
      · rename_i hpath
        rw [ih hnext, Nat.add_assoc, Nat.add_comm 1]
        refine contributes_add_iff fun j hj p' hp' => ?_
        rw [← List.drop_drop, h]
        exact no_path_in_run (Bool.eq_false_iff.mpr hpath) hj hp'

-- ---------------------------------------------------------------------------
-- Backtracking
-- ---------------------------------------------------------------------------

namespace Pattern

theorem mem_rests_typePath : r ∈ typePath.rests text ↔ ∃ w ∈ path, w ++ r = text := by
  rw [mem_rests, language_typePath]

theorem first?_typePath_of_rests (h : typePath.rests text = r :: rs) :
    ∃ p, typePath.first? text = some p ∧ LongestAt text p := by
  obtain ⟨p, hp, rfl⟩ := mem_rests_typePath.mp (h ▸ List.mem_cons_self)
  refine ⟨p, by simp [first?, h], hp, List.prefix_append p r, fun {p'} hp' hhead => ?_⟩
  obtain ⟨r', hr'⟩ := hhead
  have hordered := rests_typePath_ordered (p ++ r)
  rw [h] at hordered
  have hle : r.length ≤ r'.length := by
    have hmem := mem_rests_typePath.mpr ⟨p', hp', hr'⟩
    rw [h] at hmem
    rcases List.mem_cons.mp hmem with rfl | hmem
    · exact Nat.le_refl _
    · exact (List.pairwise_cons.mp hordered).1 r' hmem
  have := congrArg List.length hr'
  simp only [List.length_append] at this
  omega

theorem first?_typePath : typePath.first? text = some p ↔ LongestAt text p := by
  cases hr : typePath.rests text with
  | nil =>
    simp only [first?, hr, List.head?_nil, Option.map_none, reduceCtorEq, false_iff]
    intro h
    obtain ⟨rest, hrest⟩ := h.head
    have hmem := mem_rests_typePath.mpr ⟨p, h.mem, hrest⟩
    rw [hr] at hmem
    cases hmem
  | cons r rs =>
    obtain ⟨q, hq, hlongest⟩ := first?_typePath_of_rests hr
    rw [hq, Option.some.injEq]
    exact ⟨fun heq => heq ▸ hlongest, fun h => hlongest.unique h⟩

theorem findFrom_typePath (h : text.drop a = cs) :
    typePath.findFrom a cs = some (s, p) ↔ LeftmostLongest text a s p := by
  induction cs generalizing a with
  | nil =>
    have hnone : typePath.first? [] = none := Option.eq_none_iff_forall_ne_some.mpr fun q hq => by
      have hlongest := first?_typePath.mp hq
      have := length_pos_of_mem_path hlongest.mem
      have := hlongest.head.length_le
      simp only [List.length_nil] at this
      omega
    have hend : ¬ LeftmostLongest text a s p := fun hl => by
      have := hl.lt_length
      have := List.drop_eq_nil_iff.mp h
      omega
    simp [findFrom, hnone, hend]
  | cons c cs ih =>
    have hnext : text.drop (a + 1) = cs := by rw [← List.drop_drop, h]; rfl
    rw [findFrom]
    cases hfirst : typePath.first? (c :: cs) with
    | some q =>
      have hlongest : LongestAt (text.drop a) q := h ▸ first?_typePath.mp hfirst
      simp only [Option.some.injEq, Prod.mk.injEq]
      constructor
      · rintro ⟨rfl, rfl⟩
        exact hlongest.leftmostLongest
      · exact hlongest.leftmostLongest.unique
    | none =>
      simp only
      rw [ih hnext]
      refine leftmostLongest_add_iff fun j hj p' hp' hhead => ?_
      obtain rfl : j = 0 := by omega
      rw [Nat.add_zero, h] at hhead
      have hlongest := longestAt_pathAt (isPath_of_head hp' hhead)
      rw [first?_typePath.mpr hlongest] at hfirst
      cases hfirst

end Pattern

/-- The candidates in a text are the names that the search contributes. A greedy backtracking
search for the pattern of paths comes to the same paths, whatever position it starts from. -/
theorem mem_ofText_iff_contributes (text : List Char) :
    (∀ name, name ∈ Candidates.ofText text ↔ Contributes text 0 name) ∧
      ∀ a s p, Pattern.typePath.findAt text a = some (s, p) ↔ LeftmostLongest text a s p := by
  constructor
  · intro name
    rw [Candidates.mem_ofText]
    exact exists_typeName_iff_contributes (i := 0) rfl 0 0
  · intro a s p
    exact Pattern.findFrom_typePath rfl

end RefScan.Candidate
