import RefScan.Proofs.Candidate.Search
import RefScan.Proofs.Text.Offset

/-!
# The search goes from character to character

A search for paths can go by byte offsets, one path at a turn: from an offset on it looks for the
pattern, cuts the match out of the text and goes on behind it, or behind its first byte if that
stands before a descriptor. Such a search goes astray at an offset beyond the text or inside a
character, and `turn` says so. It never comes to that, each turn begins at a greater offset than
the one before, and the paths it finds are the occurrences (`turns_keep_to_characters`).
-/

namespace RefScan.Candidate

open Grammar (path)
open Text (offset)

inductive Turn where
  /-- An offset is beyond the text or inside a character. -/
  | astray
  | ended
  /-- A path, and the offset at which the next turn begins. -/
  | found (o : Occurrence) (next : Nat)

def turn (text : List Char) (a : Nat) : Turn :=
  match Text.position? text a with
  | none => .astray
  | some i =>
    match Pattern.typePath.findAt text i with
    | none => .ended
    | some (s, p) =>
      let start := offset text s
      let stop := offset text (s + p.length)
      match Text.slice? text start stop with
      | none => .astray
      | some path =>
        let o : Occurrence := ⟨start, path⟩
        .found o (if o.isGlued then start + 1 else stop)

/-- The turns from byte offset `a` to the end of the search, none of them astray: what each finds
and where the next one begins. -/
inductive Turns (text : List Char) : Nat → List (Occurrence × Nat) → Prop
  | ended {a} : turn text a = .ended → Turns text a []
  | found {a o b rest} : turn text a = .found o b → Turns text b rest →
      Turns text a ((o, b) :: rest)

variable {text p : List Char} {a b i j s k : Nat} {o : Occurrence}
  {run run' : List (Occurrence × Nat)}

-- ---------------------------------------------------------------------------
-- Offsets in a path
-- ---------------------------------------------------------------------------

theorem ascii_of_mem_path (hp : p ∈ path) : ∀ c ∈ p, c.toNat < 0x80 := by
  have hsegment {cs : List Char} (h : ∀ x ∈ cs, isSegmentChar x = true) :
      ∀ c ∈ cs, c.toNat < 0x80 :=
    fun c hc => Grammar.toNat_lt_of_isSegmentChar (h c hc)
  have hpackage {s : List Char} (hs : s ∈ Grammar.package) : ∀ c ∈ s, c.toNat < 0x80 := by
    obtain ⟨x, xs, hx, hxs, rfl⟩ := Grammar.mem_package.mp hs
    exact hsegment (List.forall_mem_cons.mpr ⟨Grammar.isSegmentChar_of_isLower hx, hxs⟩)
  induction hp using Grammar.path_induction with
  | last s r hs hr =>
    obtain ⟨x, xs, hx, hxs, rfl⟩ := Grammar.mem_final.mp hr
    refine List.forall_mem_append.mpr ⟨hpackage hs, List.forall_mem_cons.mpr ⟨by decide, ?_⟩⟩
    exact hsegment (List.forall_mem_cons.mpr ⟨hx, hxs⟩)
  | more s r hs hr ih =>
    exact List.forall_mem_append.mpr ⟨hpackage hs, List.forall_mem_cons.mpr ⟨by decide, ih⟩⟩

theorem LongestAt.offset_add (h : LongestAt (text.drop s) p) (hk : k ≤ p.length) :
    offset text (s + k) = offset text s + k := by
  obtain ⟨rest, hrest⟩ := h.head
  have htake : (text.drop s).take k = p.take k := by
    rw [← hrest, List.take_append_of_le_length hk]
  have hascii : ∀ c ∈ p.take k, c.toNat < 0x80 :=
    fun c hc => ascii_of_mem_path h.mem c (List.mem_of_mem_take hc)
  have hpart : offset (text.drop s) k = k := by
    rw [offset, htake, Text.length_utf8_of_ascii hascii, List.length_take_of_le hk]
  rw [Text.offset_add, hpart]

theorem LongestAt.resume_eq (h : LongestAt (text.drop s) p) :
    let o : Occurrence := ⟨offset text s, p⟩
    o.resume = offset text (s + 1 + if o.isGlued then 0 else p.length - 1) := by
  intro o
  have hpos := length_pos_of_mem_path h.mem
  unfold Occurrence.resume
  split
  · exact (h.offset_add hpos).symm
  · rw [Nat.add_assoc, Nat.add_sub_cancel' hpos]
    exact (h.offset_add (Nat.le_refl _)).symm

theorem LongestAt.add_length_le (h : LongestAt (text.drop s) p) : s + p.length ≤ text.length := by
  have hlen := h.head.length_le
  have hpos := length_pos_of_mem_path h.mem
  rw [List.length_drop] at hlen
  omega

theorem LongestAt.take_drop (h : LongestAt (text.drop s) p) :
    (text.take (s + p.length)).drop s = p := by
  obtain ⟨rest, hrest⟩ := h.head
  rw [List.drop_take, Nat.add_sub_cancel_left, ← hrest, List.take_left]

-- ---------------------------------------------------------------------------
-- One turn
-- ---------------------------------------------------------------------------

theorem turn_of_leftmostLongest (h : LeftmostLongest text i s p) :
    turn text (offset text i) =
      .found ⟨offset text s, p⟩ (⟨offset text s, p⟩ : Occurrence).resume := by
  have hi : i ≤ text.length := Nat.le_of_lt h.lt_length
  have hfind : Pattern.typePath.findAt text i = some (s, p) := (Pattern.findFrom_typePath rfl).mpr h
  have hslice : Text.slice? text (offset text s) (offset text (s + p.length)) = some p := by
    rw [Text.slice?_offset (Nat.le_add_right s p.length) h.longest.add_length_le,
      h.longest.take_drop]
  have hstop : offset text (s + p.length) = offset text s + p.length :=
    h.longest.offset_add (Nat.le_refl _)
  simp only [turn, Text.position?_offset hi, hfind, hslice]
  rw [hstop]
  rfl

theorem turn_eq_ended (hi : i ≤ text.length) (h : ∀ s p, ¬ LeftmostLongest text i s p) :
    turn text (offset text i) = .ended := by
  have hfind : Pattern.typePath.findAt text i = none :=
    Option.eq_none_iff_forall_ne_some.mpr fun ⟨s, p⟩ hsp =>
      h s p ((Pattern.findFrom_typePath rfl).mp hsp)
  simp only [turn, Text.position?_offset hi, hfind]

theorem turn_congr (hi : i ≤ text.length) (hj : j ≤ text.length)
    (h : ∀ s p, LeftmostLongest text i s p ↔ LeftmostLongest text j s p) :
    turn text (offset text i) = turn text (offset text j) := by
  by_cases hex : ∃ s p, LeftmostLongest text i s p
  · obtain ⟨s, p, hl⟩ := hex
    rw [turn_of_leftmostLongest hl, turn_of_leftmostLongest ((h s p).mp hl)]
  · rw [turn_eq_ended hi fun s p hl => hex ⟨s, p, hl⟩,
      turn_eq_ended hj fun s p hl => hex ⟨s, p, (h s p).mpr hl⟩]

theorem exists_position_of_turn (h : turn text a ≠ .astray) :
    ∃ i ≤ text.length, offset text i = a := by
  cases hi : Text.position? text a with
  | none => exact absurd (by simp only [turn, hi]) h
  | some i =>
    obtain ⟨hle, hoffset⟩ := Text.offset_of_position? hi
    exact ⟨i, hle, hoffset⟩

theorem exists_leftmostLongest_of_turn (h : turn text a = .found o b) :
    ∃ i s, offset text i = a ∧ offset text s = o.start ∧ LeftmostLongest text i s o.path ∧
      b = o.resume := by
  obtain ⟨i, hi, rfl⟩ := exists_position_of_turn (a := a) (by rw [h]; exact Turn.noConfusion)
  by_cases hex : ∃ s p, LeftmostLongest text i s p
  · obtain ⟨s, p, hl⟩ := hex
    rw [turn_of_leftmostLongest hl] at h
    cases h
    exact ⟨i, s, rfl, rfl, hl, rfl⟩
  · rw [turn_eq_ended hi fun s p hl => hex ⟨s, p, hl⟩] at h
    cases h

/-- Whichever way the search goes on, it does so at a greater offset and at a character. -/
theorem turn_progress (h : turn text a = .found o b) :
    (a < o.start + 1 ∧ String.Pos.Raw.IsValid (String.ofList text) ⟨o.start + 1⟩) ∧
      a < o.stop ∧ String.Pos.Raw.IsValid (String.ofList text) ⟨o.stop⟩ := by
  obtain ⟨i, s, rfl, hs, hl, -⟩ := exists_leftmostLongest_of_turn h
  have hpos := length_pos_of_mem_path hl.longest.mem
  have hnext (k : Nat) (hk : 0 < k) (hle : k ≤ o.path.length) :
      offset text i < o.start + k ∧
        String.Pos.Raw.IsValid (String.ofList text) ⟨o.start + k⟩ := by
    rw [← hs, ← hl.longest.offset_add hle]
    refine ⟨Text.offset_lt ?_ ?_, Text.isValid_offset text (s + k)⟩
    · have := hl.le
      omega
    · exact Nat.le_trans (Nat.add_le_add_left hle s) hl.longest.add_length_le
  exact ⟨hnext 1 Nat.one_pos hpos, hnext o.path.length hpos (Nat.le_refl _)⟩

theorem turn_next (h : turn text a = .found o b) :
    a < b ∧ String.Pos.Raw.IsValid (String.ofList text) ⟨b⟩ := by
  obtain ⟨-, -, -, -, -, rfl⟩ := exists_leftmostLongest_of_turn h
  obtain ⟨hstart, hstop⟩ := turn_progress h
  unfold Occurrence.resume
  split
  · exact hstart
  · exact hstop

-- ---------------------------------------------------------------------------
-- All turns
-- ---------------------------------------------------------------------------

namespace Turns

theorem unique (h : Turns text a run) (h' : Turns text a run') : run = run' := by
  induction h generalizing run' with
  | ended ht =>
    cases h' with
    | ended => rfl
    | found ht' => cases ht.symm.trans ht'
  | found ht _ ih =>
    cases h' with
    | ended ht' => cases ht.symm.trans ht'
    | found ht' hrest =>
      cases ht.symm.trans ht'
      rw [ih hrest]

theorem congr (h : Turns text a run) (heq : turn text b = turn text a) : Turns text b run := by
  cases h with
  | ended ht => exact .ended (heq.trans ht)
  | found ht hrest => exact .found (heq.trans ht) hrest

theorem increasing (h : Turns text a run) : (a :: run.map Prod.snd).Pairwise (· < ·) := by
  induction h with
  | ended => exact List.pairwise_singleton _ _
  | found ht _ ih =>
    have hlt := (turn_next ht).1
    refine List.pairwise_cons.mpr ⟨fun c hc => ?_, ih⟩
    rcases List.mem_cons.mp hc with rfl | hc
    · exact hlt
    · exact Nat.lt_trans hlt ((List.pairwise_cons.mp ih).1 c hc)

theorem isValid (h : Turns text a run) (hb : b ∈ run.map Prod.snd) :
    String.Pos.Raw.IsValid (String.ofList text) ⟨b⟩ := by
  induction h with
  | ended => cases hb
  | found ht _ ih =>
    rcases List.mem_cons.mp hb with rfl | hb
    · exact (turn_next ht).2
    · exact ih hb

theorem not_astray (h : Turns text a run) (hb : b ∈ a :: run.map Prod.snd) :
    turn text b ≠ .astray := by
  induction h with
  | ended ht =>
    obtain rfl := List.mem_singleton.mp hb
    rw [ht]
    exact Turn.noConfusion
  | found ht _ ih =>
    rcases List.mem_cons.mp hb with rfl | hb
    · rw [ht]
      exact Turn.noConfusion
    · exact ih hb

theorem add_length_le (h : Turns text a run) :
    a + run.length ≤ (String.ofList text).utf8ByteSize := by
  induction h with
  | ended ht =>
    obtain ⟨i, -, rfl⟩ := exists_position_of_turn (by rw [ht]; exact Turn.noConfusion)
    exact (Text.isValid_offset text i).le_utf8ByteSize
  | found ht _ ih =>
    have hlt := (turn_next ht).1
    rw [List.length_cons]
    omega

end Turns

theorem turns_occurrencesFrom (h : text.drop i = cs) (hi : i ≤ text.length)
    (hskip : skip ≤ cs.length) :
    Turns text (offset text (i + skip))
      ((occurrencesFrom (offset text i) skip cs).map fun o => (o, o.resume)) := by
  -- the turn begins `skip` characters further on, where the passing over ends
  induction cs generalizing i skip with
  | nil =>
    obtain rfl : skip = 0 := Nat.le_zero.mp hskip
    refine .ended (turn_eq_ended hi fun s p hl => ?_)
    have := hl.lt_length
    have := List.drop_eq_nil_iff.mp h
    omega
  | cons c cs ih =>
    have hnext : text.drop (i + 1) = cs := by rw [← List.drop_drop, h]; rfl
    have hsize : text.length = i + 1 + cs.length := by
      have hlength := congrArg List.length h
      rw [List.length_drop, List.length_cons] at hlength
      omega
    have hlt : i + 1 ≤ text.length := hsize ▸ Nat.le_add_right _ _
    have hoffset : offset text i + c.utf8Size = offset text (i + 1) := by
      rw [Text.offset_add, h, Text.offset_cons_succ, Text.offset_zero, Nat.add_zero]
    have hlen : (pathAt (c :: cs)).length - 1 ≤ cs.length := by
      have := length_pathAt_le c cs
      omega
    cases skip with
    | succ skip =>
      rw [occurrencesFrom, hoffset, Nat.add_comm skip, ← Nat.add_assoc]
      exact ih hnext hlt (Nat.le_of_succ_le_succ hskip)
    | zero =>
      rw [occurrencesFrom, hoffset, Nat.add_zero]
      split
      · rename_i hpath
        have hlongest : LongestAt (text.drop i) (pathAt (c :: cs)) := by
          rw [h]
          exact longestAt_pathAt hpath
        refine .found (turn_of_leftmostLongest hlongest.leftmostLongest) ?_
        rw [hlongest.resume_eq]
        refine ih hnext hlt ?_
        split
        · exact Nat.zero_le _
        · exact hlen
      · rename_i hpath
        refine (ih hnext hlt hlen).congr (turn_congr hi ?_ fun s p => ?_)
        · rw [hsize]
          exact Nat.add_le_add_left hlen _
        · rw [Nat.add_assoc, Nat.add_comm 1]
          refine (leftmostLongest_add_iff fun j hj p' hp' => ?_).symm
          rw [← List.drop_drop, h]
          exact no_path_in_run (Bool.eq_false_iff.mpr hpath) hj hp'

theorem turns_occurrences (text : List Char) :
    Turns text 0 ((occurrences text).map fun o => (o, o.resume)) := by
  have hall : text.drop 0 = text := List.drop_zero
  have hturns := turns_occurrencesFrom hall (Nat.zero_le _) (Nat.zero_le text.length)
  rwa [Nat.add_zero, Text.offset_zero] at hturns

/-- The search by byte offsets ends, having found the occurrences one by one. Each of its turns
begins within the text and not inside a character, and at a greater offset than the turn before,
whether the search goes on behind a path or behind the first byte of it. So no turn goes astray,
and no more paths are found than there are bytes. -/
theorem turns_keep_to_characters (text : List Char) :
    let size := (String.ofList text).utf8ByteSize
    let offsets := 0 :: (occurrences text).map Occurrence.resume
    (∀ run, Turns text 0 run ↔ run = (occurrences text).map fun o => (o, o.resume)) ∧
    (∀ a ∈ offsets, a ≤ size ∧ String.Pos.Raw.IsValid (String.ofList text) ⟨a⟩ ∧
      turn text a ≠ .astray) ∧
    offsets.Pairwise (· < ·) ∧
    (occurrences text).length ≤ size ∧
    ∀ a o b, turn text a = .found o b →
      (a < o.start + 1 ∧ String.Pos.Raw.IsValid (String.ofList text) ⟨o.start + 1⟩) ∧
        a < o.stop ∧ String.Pos.Raw.IsValid (String.ofList text) ⟨o.stop⟩ := by
  intro size offsets
  have hturns := turns_occurrences text
  have hoffsets : 0 :: ((occurrences text).map fun o => (o, o.resume)).map Prod.snd = offsets := by
    rw [List.map_map]
    rfl
  refine ⟨fun run => ⟨fun h => h.unique hturns, fun h => h ▸ hturns⟩, fun a ha => ?_, ?_, ?_,
    fun a o b => turn_progress⟩
  · rw [← hoffsets] at ha
    have hvalid : String.Pos.Raw.IsValid (String.ofList text) ⟨a⟩ := by
      rcases List.mem_cons.mp ha with rfl | ha
      · exact Text.offset_zero text ▸ Text.isValid_offset text 0
      · exact hturns.isValid ha
    exact ⟨hvalid.le_utf8ByteSize, hvalid, hturns.not_astray ha⟩
  · exact hoffsets ▸ hturns.increasing
  · have hlength := hturns.add_length_le
    rw [Nat.zero_add, List.length_map] at hlength
    exact hlength

/-- Wide characters before and behind. The first turn goes on behind the first byte of its path, and
an offset inside a wide character would lead astray. -/
theorem turns_keep_to_characters_among_wide :
    let text := "éaLb/C€d/E".toList
    turn text 0 = .found ⟨2, "aLb/C".toList⟩ 3 ∧ turn text 8 = .astray ∧
      (occurrences text).map Occurrence.resume = [3, 7, 13] ∧
      String.Pos.Raw.IsValid (String.ofList text) ⟨3⟩ ∧
      String.Pos.Raw.IsValid (String.ofList text) ⟨7⟩ := by
  intro text
  have hoccurrences : occurrences text =
      [⟨2, "aLb/C".toList⟩, ⟨4, "b/C".toList⟩, ⟨10, "d/E".toList⟩] := by decide
  obtain ⟨hturns, -, -, -, hprogress⟩ := turns_keep_to_characters text
  have hrun := (hturns _).mpr rfl
  rw [hoccurrences] at hrun
  cases hrun with
  | found hturn _ =>
    obtain ⟨⟨-, hstart⟩, -, hstop⟩ := hprogress 0 _ _ hturn
    exact ⟨hturn, rfl, by rw [hoccurrences]; decide, hstart, hstop⟩

end RefScan.Candidate
