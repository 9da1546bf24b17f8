import RefScan.Encoding

/-!
# UTF-16 written and read

Text that is written in UTF-16 reads as itself, with and without a byte order mark. Reading other
bytes is local: what is between two units does not depend on where the bytes are cut, unless the
cut parts a high surrogate from its low one. The reason is that only the last unit decides whether
a surrogate waits (`after_eq_getLast?`). So damage stays where it is: a surrogate without its
partner and an odd last byte read as one replacement character each and change nothing around them
(`Encoding.utf16_reads_text`).
-/

namespace RefScan.Text.Utf16

/-- A character beyond `0xFFFF` takes a high and a low surrogate, any other one unit. -/
def unitsOf (c : Char) : List Nat :=
  if c.toNat < 0x10000 then [c.toNat]
  else [0xD800 + (c.toNat - 0x10000) / 0x400, 0xDC00 + (c.toNat - 0x10000) % 0x400]

def ByteOrder.bytes : ByteOrder → Nat → Bytes
  | .big, u => [UInt8.ofNat (u / 256), UInt8.ofNat (u % 256)]
  | .little, u => [UInt8.ofNat (u % 256), UInt8.ofNat (u / 256)]

def encode (order : ByteOrder) (text : List Char) : Bytes :=
  (text.flatMap unitsOf).flatMap order.bytes

def ByteOrder.mark : ByteOrder → Bytes
  | .big => [0xFE, 0xFF]
  | .little => [0xFF, 0xFE]

/-- Swaps the bytes of each complete pair; an odd last byte stays. -/
def swapPairs : Bytes → Bytes
  | [] => []
  | [a] => [a]
  | a :: b :: rest => b :: a :: swapPairs rest

/-- Whether a high surrogate at the end of `u` meets its low one at the beginning of `v`. -/
def splitsPair (order : ByteOrder) (u v : Bytes) : Bool :=
  (units order u).getLast?.any isHigh && (units order v).head?.any isLow

variable {order : ByteOrder} {waiting : Option Nat} {us vs : List Nat} {u v : Bytes}

-- ---------------------------------------------------------------------------
-- Bytes and units
-- ---------------------------------------------------------------------------

theorem units_append (h : u.length % 2 = 0) :
    units order (u ++ v) = units order u ++ units order v := by
  fun_induction units order u with
  | case1 a b rest ih =>
    have hrest : rest.length % 2 = 0 := by
      simp only [List.length_cons] at h
      omega
    simp only [List.cons_append, units, ih hrest]
  | case2 u hu =>
    match u with
    | [] => rfl
    | [_] => simp at h
    | a :: b :: rest => exact absurd rfl (hu a b rest)

theorem oddTail_append (h : u.length % 2 = 0) : oddTail (u ++ v) = oddTail v := by
  simp only [oddTail, List.length_append, Nat.add_mod, h, Nat.zero_add, Nat.mod_mod]

theorem oddTail_of_even (h : u.length % 2 = 0) : oddTail u = [] := by
  simp [oddTail, h]

theorem units_little (bytes : Bytes) : units .little bytes = units .big (swapPairs bytes) := by
  fun_induction swapPairs bytes with
  | case1 => rfl
  | case2 a => rfl
  | case3 a b rest ih => simp only [units, ByteOrder.unit, ih]

theorem length_swapPairs (bytes : Bytes) : (swapPairs bytes).length = bytes.length := by
  fun_induction swapPairs bytes with
  | case1 => rfl
  | case2 a => rfl
  | case3 a b rest ih => simp only [List.length_cons, ih]

theorem decode_little (bytes : Bytes) : decode .little bytes = decode .big (swapPairs bytes) := by
  simp only [decode, oddTail, units_little, length_swapPairs]

theorem units_bytes_append (order : ByteOrder) (h : n < 0x10000) (v : Bytes) :
    units order (order.bytes n ++ v) = n :: units order v := by
  have hhigh : n / 256 < 256 := by omega
  cases order <;>
    simp [ByteOrder.bytes, ByteOrder.unit, units, Nat.mod_eq_of_lt hhigh] <;> omega

theorem units_flatMap_bytes (order : ByteOrder) (h : ∀ n ∈ us, n < 0x10000) :
    units order (us.flatMap order.bytes) = us := by
  induction us with
  | nil => rfl
  | cons n us ih =>
    rw [List.flatMap_cons, units_bytes_append order (h n List.mem_cons_self),
      ih fun m hm => h m (List.mem_cons_of_mem _ hm)]

theorem even_length_flatMap_bytes (order : ByteOrder) (us : List Nat) :
    (us.flatMap order.bytes).length % 2 = 0 := by
  induction us with
  | nil => rfl
  | cons n us ih =>
    have hn : (order.bytes n).length = 2 := by cases order <;> rfl
    rw [List.flatMap_cons, List.length_append, hn, Nat.add_mod_left, ih]

-- ---------------------------------------------------------------------------
-- Written text
-- ---------------------------------------------------------------------------

theorem toNat_lt_of_char (c : Char) :
    c.toNat < 0xD800 ∨ (0xDFFF < c.toNat ∧ c.toNat < 0x110000) := c.valid

theorem unitsOf_lt (h : n ∈ unitsOf c) : n < 0x10000 := by
  have hc := toNat_lt_of_char c
  unfold unitsOf at h
  split at h
  · rw [List.mem_singleton.mp h]
    assumption
  · simp only [List.mem_cons, List.not_mem_nil, or_false] at h
    omega

theorem decodeUnits_single (hhigh : isHigh n = false) (hlow : isLow n = false) (us : List Nat) :
    decodeUnits none (n :: us) = Char.ofNat n :: decodeUnits none us := by
  simp [decodeUnits, feed, first, hhigh, hlow]

theorem decodeUnits_pair (hhigh : isHigh high = true) (hlow : isLow low = true) (us : List Nat) :
    decodeUnits none (high :: low :: us) = pair high low :: decodeUnits none us := by
  simp [decodeUnits, feed, first, hhigh, hlow]

theorem decodeUnits_unitsOf (c : Char) (us : List Nat) :
    decodeUnits none (unitsOf c ++ us) = c :: decodeUnits none us := by
  have hc := toNat_lt_of_char c
  unfold unitsOf
  split
  · have hhigh : isHigh c.toNat = false := by simp [isHigh]; omega
    have hlow : isLow c.toNat = false := by simp [isLow]; omega
    rw [List.singleton_append, decodeUnits_single hhigh hlow, Char.ofNat_toNat]
  · -- the surrogates hold the upper and the lower ten bits of what is beyond `0xFFFF`
    have hhigh : isHigh (0xD800 + (c.toNat - 0x10000) / 0x400) = true := by simp [isHigh]; omega
    have hlow : isLow (0xDC00 + (c.toNat - 0x10000) % 0x400) = true := by simp [isLow]; omega
    have hvalue : 0x10000 + (0xD800 + (c.toNat - 0x10000) / 0x400 - 0xD800) * 0x400 +
        (0xDC00 + (c.toNat - 0x10000) % 0x400 - 0xDC00) = c.toNat := by omega
    rw [List.cons_append, List.singleton_append, decodeUnits_pair hhigh hlow, pair, hvalue,
      Char.ofNat_toNat]

theorem decodeUnits_flatMap_unitsOf (text : List Char) :
    decodeUnits none (text.flatMap unitsOf) = text := by
  induction text with
  | nil => rfl
  | cons c text ih => rw [List.flatMap_cons, decodeUnits_unitsOf, ih]

theorem decode_encode (order : ByteOrder) (text : List Char) :
    decode order (encode order text) = text := by
  have hunits : ∀ n ∈ text.flatMap unitsOf, n < 0x10000 := fun n hn => by
    obtain ⟨c, -, hc⟩ := List.mem_flatMap.mp hn
    exact unitsOf_lt hc
  rw [decode, encode, units_flatMap_bytes order hunits, decodeUnits_flatMap_unitsOf,
    oddTail_of_even (even_length_flatMap_bytes order _), List.append_nil]

theorem decodeMarked_mark (order : ByteOrder) (bytes : Bytes) :
    decodeMarked (order.mark ++ bytes) = decode order bytes := by
  cases order <;> rfl

theorem decodeMarked_of_unmarked (h : ∀ order : ByteOrder, ¬ order.mark <+: bytes) :
    decodeMarked bytes = decode .big bytes := by
  unfold decodeMarked
  split
  · rename_i rest
    exact absurd ⟨rest, rfl⟩ (h .big)
  · rename_i rest
    exact absurd ⟨rest, rfl⟩ (h .little)
  · rfl

-- ---------------------------------------------------------------------------
-- Any bytes
-- ---------------------------------------------------------------------------

def after (waiting : Option Nat) (us : List Nat) : Option Nat :=
  us.foldl (fun waiting u => (feed waiting u).2) waiting

theorem feed_waits (waiting : Option Nat) (u : Nat) :
    (feed waiting u).2 = if isHigh u then some u else none := by
  have hfirst : (first u).2 = if isHigh u then some u else none := by
    simp only [first]
    split
    · rfl
    · split <;> rfl
  cases waiting with
  | none => exact hfirst
  | some high =>
    simp only [feed]
    split
    · rename_i hlow
      have hhigh : isHigh u = false := by
        simp only [isLow, isHigh, Bool.and_eq_true, decide_eq_true_eq] at hlow ⊢
        simp only [Bool.and_eq_false_imp, decide_eq_true_eq, decide_eq_false_iff_not]
        omega
      simp [hhigh]
    · exact hfirst

/-- A surrogate waits if the last unit is one, whatever came before. -/
theorem after_eq_getLast? (us : List Nat) : after none us = us.getLast?.filter isHigh := by
  rcases List.eq_nil_or_concat us with rfl | ⟨us, u, rfl⟩
  · rfl
  · rw [List.concat_eq_append, after, List.foldl_append, List.foldl_cons, List.foldl_nil,
      feed_waits, List.getLast?_concat]
    simp only [Option.filter]

/-- A waiting surrogate is given up where no low surrogate follows. -/
theorem decodeUnits_waiting (h : waiting = none ∨ us.head?.any isLow = false) :
    decodeUnits waiting us = finish waiting ++ decodeUnits none us := by
  cases waiting with
  | none => rfl
  | some high =>
    cases us with
    | nil => rfl
    | cons u us =>
      have hlow : isLow u = false := by simpa using h
      simp [decodeUnits, feed, finish, hlow]

theorem decodeUnits_append (h : after waiting us = none ∨ vs.head?.any isLow = false) :
    decodeUnits waiting (us ++ vs) = decodeUnits waiting us ++ decodeUnits none vs := by
  induction us generalizing waiting with
  | nil => exact decodeUnits_waiting h
  | cons u us ih => simp only [List.cons_append, decodeUnits, ih h, List.append_assoc]

theorem decode_append (heven : u.length % 2 = 0) (h : splitsPair order u v = false) :
    decode order (u ++ v) = decode order u ++ decode order v := by
  have hcut : after none (units order u) = none ∨ (units order v).head?.any isLow = false := by
    rw [after_eq_getLast?]
    simp only [splitsPair, Bool.and_eq_false_iff] at h
    refine h.imp_left fun hlast => ?_
    cases hl : (units order u).getLast? with
    | none => rfl
    | some n =>
      rw [hl] at hlast
      simpa using hlast
  simp only [decode, units_append heven, decodeUnits_append hcut, oddTail_append heven,
    oddTail_of_even heven, List.append_nil, List.append_assoc]

theorem decode_odd_byte (order : ByteOrder) (b : UInt8) : decode order [b] = [replacement] := rfl

theorem decode_surrogate (h : isHigh (order.unit a b) = true ∨ isLow (order.unit a b) = true) :
    decode order [a, b] = [replacement] := by
  simp only [decode, units, decodeUnits, feed, first]
  split
  · simp [finish, oddTail]
  · rename_i hhigh
    simp [h.resolve_left hhigh, finish, oddTail]

end RefScan.Text.Utf16

namespace RefScan.Encoding

open Text.Utf16

def ofByteOrder : ByteOrder → Encoding
  | .big => .utf16be
  | .little => .utf16le

theorem decode_ofByteOrder (order : ByteOrder) :
    (ofByteOrder order).decode = Text.Utf16.decode order := by
  cases order <;> rfl

/-- Written text reads as itself in the order it is written in, or behind its mark in any order.
Bytes without a mark are read as big-endian, and little-endian reading is big-endian reading of
the swapped pairs. Reading is local, so odd bytes and surrogates without a partner leave the text
around them as it is. -/
theorem utf16_reads_text :
    (∀ order text, (ofByteOrder order).decode (encode order text) = text ∧
      utf16.decode (order.mark ++ encode order text) = text) ∧
    (∀ bytes, (∀ order : ByteOrder, ¬ order.mark <+: bytes) →
      utf16.decode bytes = utf16be.decode bytes) ∧
    (∀ bytes, utf16le.decode bytes = utf16be.decode (swapPairs bytes)) ∧
    ∀ order (u v : Bytes), u.length % 2 = 0 →
      (splitsPair order u v = false → (ofByteOrder order).decode (u ++ v) =
        (ofByteOrder order).decode u ++ (ofByteOrder order).decode v) ∧
      (∀ b, (ofByteOrder order).decode (u ++ [b]) =
        (ofByteOrder order).decode u ++ [Text.replacement]) ∧
      ∀ a b, (isHigh (order.unit a b) = true ∨ isLow (order.unit a b) = true) →
        splitsPair order u [a, b] = false → splitsPair order [a, b] v = false →
        (ofByteOrder order).decode (u ++ a :: b :: v) =
          (ofByteOrder order).decode u ++ Text.replacement :: (ofByteOrder order).decode v := by
  refine ⟨fun order text => ?_, fun bytes h => decodeMarked_of_unmarked h, decode_little,
    fun order u v heven => ?_⟩
  · rw [decode_ofByteOrder]
    exact ⟨decode_encode order text, (decodeMarked_mark order _).trans (decode_encode order text)⟩
  · rw [decode_ofByteOrder]
    refine ⟨decode_append heven, fun b => ?_, fun a b hlone hu hv => ?_⟩
    · rw [decode_append heven (by simp [splitsPair, units]), decode_odd_byte]
    · have hsplit : splitsPair order u ([a, b] ++ v) = false := hu
      rw [← List.singleton_append (l := v), ← List.cons_append, decode_append heven hsplit,
        decode_append (u := [a, b]) (by simp) hv, decode_surrogate hlone, List.singleton_append]

/-- Of two high surrogates before a low one, only the second has a partner. -/
theorem utf16_reads_high_high_low :
    let rest : Bytes := [0xD8, 0x3D, 0xDE, 0x00, 0x41]
    splitsPair .big [0xD8, 0x3D] rest = false ∧
      utf16be.decode ([0xD8, 0x3D] ++ rest) =
        utf16be.decode [0xD8, 0x3D] ++ utf16be.decode rest ∧
      utf16be.decode [0xD8, 0x3D] = [Text.replacement] ∧
      utf16be.decode rest = ['😀', Text.replacement] ∧
      utf16.decode ([0xD8, 0x3D] ++ rest) = utf16be.decode ([0xD8, 0x3D] ++ rest) := by
  intro rest
  have hsplit : splitsPair .big [0xD8, 0x3D] rest = false := by decide
  have hunmarked (order : ByteOrder) : ¬ order.mark <+: [0xD8, 0x3D] ++ rest := by
    cases order <;> decide
  exact ⟨hsplit, (utf16_reads_text.2.2.2 .big [0xD8, 0x3D] rest rfl).1 hsplit, by decide,
    by decide, utf16_reads_text.2.1 _ hunmarked⟩

end RefScan.Encoding
