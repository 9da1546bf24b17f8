import RefScan.Text

/-!
# Characters and their byte offsets

The `i`-th character of a text starts at a byte offset in UTF-8 (`offset`), and not every offset is
the start of a character: `position?` goes the other way where it can. Offsets grow with positions
and are the valid positions of the text as a string (`isValid_offset`); in ASCII the two differ by
nothing (`length_utf8_of_ascii`).
-/

namespace RefScan.Text

def offset (text : List Char) (i : Nat) : Nat := (utf8 (text.take i)).length

/-- The character that starts at a byte offset, or the end of the text. There is none beyond the
end, nor inside a character. -/
def position? : List Char → Nat → Option Nat
  | [], a => if a = 0 then some 0 else none
  | c :: cs, a =>
    if a = 0 then some 0
    else if c.utf8Size ≤ a then (position? cs (a - c.utf8Size)).map (· + 1)
    else none

def slice? (text : List Char) (start stop : Nat) : Option (List Char) := do
  let i ← position? text start
  let j ← position? text stop
  if i ≤ j then some ((text.take j).drop i) else none

variable {c : Char} {cs text : List Char} {a i j : Nat}

-- ---------------------------------------------------------------------------
-- Sizes
-- ---------------------------------------------------------------------------

theorem length_utf8_cons (c : Char) (cs : List Char) :
    (utf8 (c :: cs)).length = c.utf8Size + (utf8 cs).length := by
  rw [utf8, List.flatMap_cons, List.length_append, String.length_utf8EncodeChar, ← utf8]

theorem length_utf8_append (cs cs' : List Char) :
    (utf8 (cs ++ cs')).length = (utf8 cs).length + (utf8 cs').length := by
  rw [utf8, List.flatMap_append, List.length_append, ← utf8, ← utf8]

theorem utf8ByteSize_ofList (cs : List Char) :
    (String.ofList cs).utf8ByteSize = (utf8 cs).length := by
  simp [String.utf8ByteSize, List.utf8Encode, utf8]

theorem utf8Size_of_ascii (h : c.toNat < 0x80) : c.utf8Size = 1 := by
  rw [Char.utf8Size_eq_one_iff, UInt32.le_iff_toNat_le]
  exact Nat.le_of_lt_succ h

theorem length_utf8_of_ascii (h : ∀ c ∈ cs, c.toNat < 0x80) : (utf8 cs).length = cs.length := by
  induction cs with
  | nil => rfl
  | cons c cs ih =>
    rw [length_utf8_cons, utf8Size_of_ascii (h c List.mem_cons_self),
      ih fun x hx => h x (List.mem_cons_of_mem _ hx), List.length_cons, Nat.add_comm]

-- ---------------------------------------------------------------------------
-- Offsets
-- ---------------------------------------------------------------------------

theorem offset_zero (text : List Char) : offset text 0 = 0 := by
  rw [offset, List.take_zero]
  rfl

theorem offset_cons_succ (c : Char) (cs : List Char) (i : Nat) :
    offset (c :: cs) (i + 1) = c.utf8Size + offset cs i := by
  rw [offset, List.take_succ_cons, length_utf8_cons, ← offset]

theorem offset_add (text : List Char) (i j : Nat) :
    offset text (i + j) = offset text i + offset (text.drop i) j := by
  rw [offset, List.take_add, length_utf8_append, ← offset, ← offset]

theorem offset_lt (hij : i < j) (hj : j ≤ text.length) : offset text i < offset text j := by
  obtain ⟨k, rfl⟩ := Nat.exists_eq_add_of_lt hij
  have hne : text.drop i ≠ [] := by
    simp only [ne_eq, List.drop_eq_nil_iff]
    omega
  obtain ⟨c, cs, hcs⟩ := List.exists_cons_of_ne_nil hne
  rw [Nat.add_assoc, offset_add, hcs, offset_cons_succ]
  have := c.utf8Size_pos
  omega

theorem isValid_offset (text : List Char) (i : Nat) :
    String.Pos.Raw.IsValid (String.ofList text) ⟨offset text i⟩ :=
  String.Pos.Raw.isValid_ofList.mpr ⟨i, (utf8ByteSize_ofList _).symm⟩

theorem position?_offset (hi : i ≤ text.length) : position? text (offset text i) = some i := by
  induction text generalizing i with
  | nil =>
    obtain rfl : i = 0 := Nat.le_zero.mp hi
    rfl
  | cons c cs ih =>
    cases i with
    | zero => simp [offset_zero, position?]
    | succ i =>
      have hpos := c.utf8Size_pos
      rw [offset_cons_succ, position?, if_neg (by omega), if_pos (by omega),
        Nat.add_sub_cancel_left, ih (Nat.le_of_succ_le_succ hi)]
      rfl

theorem offset_of_position? (h : position? text a = some i) :
    i ≤ text.length ∧ offset text i = a := by
  induction text generalizing a i with
  | nil =>
    rw [position?] at h
    split at h
    · rename_i ha
      cases h
      exact ⟨Nat.le_refl _, ha.symm⟩
    · cases h
  | cons c cs ih =>
    rw [position?] at h
    split at h
    · rename_i ha
      cases h
      exact ⟨Nat.zero_le _, (offset_zero _).trans ha.symm⟩
    · split at h
      · rename_i hc
        obtain ⟨k, hk, rfl⟩ := Option.map_eq_some_iff.mp h
        obtain ⟨hle, hoffset⟩ := ih hk
        refine ⟨Nat.succ_le_succ hle, ?_⟩
        rw [offset_cons_succ, hoffset, Nat.add_sub_cancel' hc]
      · cases h

theorem slice?_offset (hij : i ≤ j) (hj : j ≤ text.length) :
    slice? text (offset text i) (offset text j) = some ((text.take j).drop i) := by
  rw [slice?, position?_offset (Nat.le_trans hij hj), position?_offset hj]
  exact if_pos hij

end RefScan.Text
