import RefScan.CompiledUnit
import RefScan.Proofs.Candidate.TypePath
import RefScan.Proofs.Encoding
import RefScan.Proofs.Text.Offset

/-!
# The candidates in a made-up unit

Every text of a unit's table follows a tag, which is a delimiter, so it can be searched on its own
(`mem_ofText_table`). What is before it are the two characters of its length. They may be letters,
digits or slashes by accident; that can spoil a path but not the descriptor behind it, where
a character before the `L` does not count. So a unit yields all its references, and just these and
its own name if no length happens to end in a lower-case letter
(`ofBytes_bytes`).
-/

namespace RefScan

open Candidate

/-- Packages in lower case and a capitalised name, as conventions have it, and not overly long. -/
structure TypeName.Conventional (t : TypeName) : Prop where
  segments : ∃ packages simple, Text.fields '.' t.name.toList = packages ++ [simple] ∧
    packages ≠ [] ∧ (∀ s ∈ packages, s ∈ Grammar.package) ∧ simple ∈ Grammar.capitalised
  not_glued : t.name.toList[1]? ≠ some 'L'
  length_le : t.name.length ≤ 12285

-- ---------------------------------------------------------------------------
-- Names and their paths
-- ---------------------------------------------------------------------------

theorem TypeName.length_internal (t : TypeName) : t.internal.length = t.name.length := by
  rw [← String.length_toList, TypeName.internal, String.toList_ofList, Text.replace,
    List.length_map, String.length_toList]

namespace TypeName.Conventional

variable {t : TypeName}

theorem slash_not_mem (h : t.Conventional) : '/' ∉ t.name.toList := by
  obtain ⟨packages, simple, hfields, -, hpackages, hsimple⟩ := h.segments
  rw [← Text.joined_fields_self '.' t.name.toList, hfields]
  intro hmem
  rcases Text.mem_joined hmem with heq | ⟨part, hpart, hc⟩
  · exact absurd heq (by decide)
  · exact ne_slash_of_isSegmentChar (isSegmentChar_of_mem_segments hpackages hsimple hpart hc) rfl

theorem exists_typePath (h : t.Conventional) :
    ∃ P : TypePath, t.internal.toList = P.text ∧ t.simple.toList = P.simple ∧ P.name = t.name := by
  obtain ⟨packages, simple, hfields, hne, hpackages, hsimple⟩ := h.segments
  have htext : Text.joined '/' (packages ++ [simple]) = Text.replace '.' '/' t.name.toList := by
    rw [← hfields, Text.joined_fields]
  have hglued : (Text.joined '/' (packages ++ [simple]))[1]? ≠ some 'L' := by
    rw [htext]
    exact fun heq => h.not_glued (Text.getElem?_of_replace heq (by decide))
  refine ⟨⟨packages, simple, hne, hpackages, hsimple, hglued⟩, ?_, ?_, ?_⟩
  · rw [internal, String.toList_ofList, ← htext]
    rfl
  · rw [TypeName.simple, hfields]
    simp
  · rw [TypePath.name, TypePath.text, htext, Text.replace_replace_of_not_mem h.slash_not_mem,
      String.ofList_toList]

theorem length_simple_le (h : t.Conventional) : t.simple.length ≤ t.name.length := by
  obtain ⟨P, hinternal, hsimple, -⟩ := h.exists_typePath
  rw [← length_internal t, ← String.length_toList, ← String.length_toList, hinternal, hsimple,
    P.text_eq]
  simp only [List.length_append, List.length_cons]
  omega

end TypeName.Conventional

-- ---------------------------------------------------------------------------
-- Texts of a table
-- ---------------------------------------------------------------------------

namespace CompiledUnit

open Encoding (decodeLatin1)

def byteChar (n : Nat) : Char := Char.ofNat (UInt8.ofNat n).toNat

theorem toNat_byteChar (n : Nat) : (byteChar n).toNat = n % 256 := by
  rw [byteChar, Encoding.toNat_ofNat_of_byte, UInt8.toNat_ofNat']

theorem isLower_byteChar : (byteChar n).isLower = true ↔ 97 ≤ n % 256 ∧ n % 256 ≤ 122 := by
  rw [Grammar.isLower_iff_toNat, toNat_byteChar]

theorem decodeLatin1_append (a b : Bytes) :
    decodeLatin1 (a ++ b) = decodeLatin1 a ++ decodeLatin1 b :=
  List.map_append

theorem decodeLatin1_utf8_of_ascii (h : ∀ c ∈ cs, c.toNat < 0x80) :
    decodeLatin1 (Text.utf8 cs) = cs := by
  induction cs with
  | nil => rfl
  | cons c cs ih =>
    have hc : c.toNat < 0x80 := h c List.mem_cons_self
    have hdecode := ih fun x hx => h x (List.mem_cons_of_mem _ hx)
    have hbyte : Char.ofNat (c.val.toUInt8).toNat = c := by
      rw [UInt32.toNat_toUInt8, Nat.mod_eq_of_lt (by rw [Char.toNat_val]; omega), Char.toNat_val,
        Char.ofNat_toNat]
    have hutf8 : Text.utf8 (c :: cs) = c.val.toUInt8 :: Text.utf8 cs := by
      rw [Text.utf8, List.flatMap_cons,
        String.utf8EncodeChar_eq_singleton (Text.utf8Size_of_ascii hc)]
      rfl
    rw [hutf8, decodeLatin1, List.map_cons, hbyte, ← decodeLatin1, hdecode]

def numbered (s : String) : List Char :=
  byteChar (s.length / 256) :: byteChar s.length :: s.toList

theorem decodeLatin1_entry (h : ∀ c ∈ s.toList, c.toNat < 0x80) :
    decodeLatin1 (entry s) = '\x01' :: numbered s := by
  rw [entry, utf8Bytes, decodeLatin1_append, decodeLatin1_utf8_of_ascii h,
    Text.length_utf8_of_ascii h, String.length_toList]
  rfl

theorem mem_ofText_table {strings : List String} (hd : IsDelimiter d) (u v : List Char)
    (h : ∀ s ∈ strings, ∀ c ∈ s.toList, c.toNat < 0x80) :
    name ∈ Candidates.ofText (u ++ (decodeLatin1 (strings.flatMap entry) ++ d :: v)) ↔
      name ∈ Candidates.ofText u ∨ (∃ s ∈ strings, name ∈ Candidates.ofText (numbered s)) ∨
        name ∈ Candidates.ofText v := by
  -- the text that was just read is what stands before the rest of the table
  induction strings generalizing u with
  | nil => simpa [decodeLatin1] using Candidates.mem_ofText_append_delimiter hd u v
  | cons s strings ih =>
    have htag : IsDelimiter '\x01' := by decide
    rw [List.flatMap_cons, decodeLatin1_append, decodeLatin1_entry (h s List.mem_cons_self),
      List.append_assoc, List.cons_append, Candidates.mem_ofText_append_delimiter htag,
      ih (numbered s) fun x hx => h x (List.mem_cons_of_mem _ hx)]
    simp only [List.mem_cons, exists_eq_or_imp, or_assoc]

-- ---------------------------------------------------------------------------
-- Candidates in the texts
-- ---------------------------------------------------------------------------

/-- The version and the size of the table are too short for a path, whatever they read as. -/
theorem not_mem_ofText_header (n : Nat) :
    name ∉ Candidates.ofText (decodeLatin1 (header ++ word n)) := by
  have hdecode : decodeLatin1 (header ++ word n) =
      ['\xCA', '\xFE', '\xBA', '\xBE', '\x00', '\x00', '\x00'] ++
        ['4', byteChar (n / 256), byteChar n] := rfl
  rw [hdecode, Candidates.mem_ofText_delimiters_append,
    Candidates.mem_ofText_cons_of_not_isLower (by decide)]
  · intro hmem
    obtain ⟨p, hp, hsub⟩ := Candidates.exists_path_of_mem_ofText hmem
    have := three_le_length_of_mem_path hp
    have := hsub.length_le
    simp only [List.length_cons, List.length_nil] at this
    omega
  · intro d hd
    simp only [List.mem_cons, List.not_mem_nil, or_false] at hd
    rcases hd with rfl | rfl | rfl | rfl | rfl | rfl | rfl <;> decide

section

variable {s : String}

/-- In a text of moderate length the first of the two characters is no lower-case letter: these
start at `0x61`. -/
theorem mem_ofText_numbered_append (h : s.length < 0x6100) (v : List Char) :
    name ∈ Candidates.ofText (numbered s ++ v) ↔
      name ∈ Candidates.ofText (byteChar s.length :: (s.toList ++ v)) := by
  refine Candidates.mem_ofText_cons_of_not_isLower (Bool.eq_false_iff.mpr fun hl => ?_) _
  have := isLower_byteChar.mp hl
  omega

theorem mem_ofText_numbered (h : s.length < 0x6100) :
    name ∈ Candidates.ofText (numbered s) ↔
      name ∈ Candidates.ofText (byteChar s.length :: s.toList) := by
  simpa only [List.append_nil] using mem_ofText_numbered_append h []

theorem not_mem_ofText_numbered (h : s.length < 0x6100) (hs : '/' ∉ s.toList) :
    name ∉ Candidates.ofText (numbered s) := by
  rw [mem_ofText_numbered h]
  by_cases hslash : byteChar s.length = '/'
  · -- no path starts with a slash
    rw [hslash, Candidates.mem_ofText_cons_of_not_isLower (by decide)]
    exact Candidates.not_mem_ofText_of_slash_not_mem hs
  · refine Candidates.not_mem_ofText_of_slash_not_mem fun hmem => ?_
    rcases List.mem_cons.mp hmem with heq | hmem
    · exact hslash heq.symm
    · exact hs hmem

variable {P : TypePath}

theorem mem_ofText_path (hs : s.toList = P.text) (h : s.length < 0x6100)
    (hlow : ¬ (97 ≤ s.length % 256 ∧ s.length % 256 ≤ 122)) :
    name ∈ Candidates.ofText (numbered s) ↔ name = P.name := by
  have hbyte : (byteChar s.length).isLower = false :=
    Bool.eq_false_iff.mpr (mt isLower_byteChar.mp hlow)
  rw [mem_ofText_numbered h, Candidates.mem_ofText_cons_of_not_isLower hbyte, hs,
    ← List.append_nil P.text, Candidates.mem_ofText_typePath P (by simp)]
  exact or_iff_left Candidates.not_mem_ofText_nil

theorem mem_ofText_descriptor (hs : s.toList = 'L' :: (P.text ++ [';'])) (h : s.length < 0x6100) :
    name ∈ Candidates.ofText (numbered s) ↔ name = P.name := by
  have hend : name ∉ Candidates.ofText [';'] := Candidates.not_mem_ofText_of_slash_not_mem (by simp)
  have hhead : ∀ c ∈ [';'].head?, isSegmentChar c = false := by
    intro c hc
    obtain rfl : ';' = c := Option.some.inj hc
    decide
  rw [mem_ofText_numbered h, hs, Candidates.mem_ofText_cons_descriptor,
    Candidates.mem_ofText_typePath P hhead]
  exact or_iff_left hend

end

-- ---------------------------------------------------------------------------
-- The texts of a unit
-- ---------------------------------------------------------------------------

structure IsPlain (s : String) : Prop where
  ascii : ∀ c ∈ s.toList, c.toNat < 0x80
  short : s.length < 0x6100
  slash_not_mem : '/' ∉ s.toList

theorem IsPlain.of_all (h : s.toList.all (fun c => decide (c.toNat < 0x80) && c != '/') = true)
    (hlen : s.length < 0x6100) : IsPlain s := by
  simp only [List.all_eq_true, Bool.and_eq_true, decide_eq_true_eq, bne_iff_ne] at h
  exact ⟨fun c hc => (h c hc).1, hlen, fun hc => (h '/' hc).2 rfl⟩

theorem mem_texts_iff {u : CompiledUnit} : s ∈ u.texts ↔
    (∃ t ∈ u.type :: u.references, s = t.internal) ∨
      (∃ r ∈ u.references, s = "L" ++ r.internal ++ ";") ∨
      s ∈ ["<init>", "()V", "Code", "LineNumberTable", "SourceFile", u.type.simple ++ ".java"] := by
  simp only [texts, referenceTexts, List.cons_append, List.mem_cons, List.mem_append,
    List.mem_flatMap, List.not_mem_nil, or_false, exists_eq_or_imp, and_or_left, exists_or,
    or_assoc]

section

variable {t : TypeName}

theorem isPlain_sourceFile (h : t.Conventional) : IsPlain (t.simple ++ ".java") := by
  obtain ⟨P, -, hsimple, -⟩ := h.exists_typePath
  have hchar (c : Char) (hc : c ∈ (t.simple ++ ".java").toList) :
      isSegmentChar c = true ∨ c = '.' := by
    rw [String.toList_append, hsimple, List.mem_append] at hc
    rcases hc with hc | hc
    · exact .inl (isSegmentChar_of_mem_segments P.isPackage P.isCapitalised
        (List.mem_append_right _ (List.mem_singleton_self _)) hc)
    · have hjava : ".java".toList.all (fun c => isSegmentChar c || c == '.') = true := by decide
      simpa using List.all_eq_true.mp hjava c hc
  refine ⟨fun c hc => ?_, ?_, fun hc => ?_⟩
  · rcases hchar c hc with hseg | rfl
    · exact Grammar.toNat_lt_of_isSegmentChar hseg
    · decide
  · rw [String.length_append, show ".java".length = 5 from rfl]
    have := h.length_simple_le
    have := h.length_le
    omega
  · rcases hchar '/' hc with hseg | hdot
    · exact ne_slash_of_isSegmentChar hseg rfl
    · exact absurd hdot (by decide)

theorem isPlain_of_mem (h : t.Conventional)
    (hs : s ∈ ["<init>", "()V", "Code", "LineNumberTable", "SourceFile", t.simple ++ ".java"]) :
    IsPlain s := by
  simp only [List.mem_cons, List.not_mem_nil, or_false] at hs
  rcases hs with rfl | rfl | rfl | rfl | rfl | rfl
  case inr.inr.inr.inr.inr => exact isPlain_sourceFile h
  all_goals exact .of_all (by decide) (by decide)

theorem ascii_internal (h : t.Conventional) : ∀ c ∈ t.internal.toList, c.toNat < 0x80 := by
  obtain ⟨P, hinternal, -, -⟩ := h.exists_typePath
  rw [hinternal]
  exact fun c hc => P.ascii hc

theorem toList_descriptor (t : TypeName) :
    ("L" ++ t.internal ++ ";").toList = 'L' :: (t.internal.toList ++ [';']) := by
  rw [String.toList_append, String.toList_append]
  rfl

theorem mem_ofText_reference (h : t.Conventional) :
    name ∈ Candidates.ofText (numbered ("L" ++ t.internal ++ ";")) ↔ name = t.name := by
  obtain ⟨P, hinternal, -, hname⟩ := h.exists_typePath
  rw [mem_ofText_descriptor (P := P), hname]
  · rw [toList_descriptor, hinternal]
  · rw [← String.length_toList, toList_descriptor, List.length_cons, List.length_append,
      String.length_toList, TypeName.length_internal]
    have := h.length_le
    simp only [List.length_cons, List.length_nil]
    omega

theorem mem_ofText_internal (h : t.Conventional)
    (hlow : ¬ (97 ≤ t.name.length % 256 ∧ t.name.length % 256 ≤ 122)) :
    name ∈ Candidates.ofText (numbered t.internal) ↔ name = t.name := by
  obtain ⟨P, hinternal, -, hname⟩ := h.exists_typePath
  rw [mem_ofText_path hinternal _ _, hname]
  · rw [TypeName.length_internal]
    have := h.length_le
    omega
  · rwa [TypeName.length_internal]

end

-- ---------------------------------------------------------------------------
-- Units
-- ---------------------------------------------------------------------------

section

variable {u : CompiledUnit} {e : Encoding}

theorem ascii_of_mem_texts (hu : ∀ t ∈ u.type :: u.references, t.Conventional) :
    ∀ s ∈ u.texts, ∀ c ∈ s.toList, c.toNat < 0x80 := by
  intro s hs
  rcases mem_texts_iff.mp hs with ⟨t, ht, rfl⟩ | ⟨r, hr, rfl⟩ | hplain
  · exact ascii_internal (hu t ht)
  · rw [toList_descriptor]
    simp only [List.mem_cons, List.mem_append, List.not_mem_nil, or_false]
    rintro c (rfl | hc | rfl)
    · decide
    · exact ascii_internal (hu r (List.mem_cons_of_mem _ hr)) c hc
    · decide
  · exact (isPlain_of_mem (hu u.type List.mem_cons_self) hplain).ascii

theorem asciiCompatible_of_eq (he : e = .utf8 ∨ e = .latin1 ∨ e = .ascii) : e.AsciiCompatible := by
  rcases he with rfl | rfl | rfl
  · exact Encoding.utf8_asciiCompatible
  · exact Encoding.latin1_asciiCompatible
  · exact Encoding.ascii_asciiCompatible

theorem mem_ofBytes_iff (hu : ∀ t ∈ u.type :: u.references, t.Conventional)
    (he : e.AsciiCompatible) :
    name ∈ Candidates.ofBytes e u.bytes ↔
      ∃ s ∈ u.texts, name ∈ Candidates.ofText (numbered s) := by
  have hzero : IsDelimiter '\x00' := by decide
  have htrailer : name ∉ Candidates.ofText (decodeLatin1 trailer.tail) :=
    Candidates.not_mem_ofText_of_slash_not_mem (by decide)
  have hbytes : Candidates.ofBytes e u.bytes = Candidates.ofText (decodeLatin1 u.bytes) :=
    he.ofBytes_eq Encoding.latin1_asciiCompatible u.bytes
  have hdecode : decodeLatin1 u.bytes = decodeLatin1 (header ++ word (u.texts.length + 1)) ++
      (decodeLatin1 (u.texts.flatMap entry) ++ '\x00' :: decodeLatin1 trailer.tail) := by
    have hstart : decodeLatin1 trailer = '\x00' :: decodeLatin1 trailer.tail := rfl
    rw [bytes, List.append_assoc, decodeLatin1_append, decodeLatin1_append (u.texts.flatMap entry),
      hstart]
  rw [hbytes, hdecode, mem_ofText_table hzero _ _ (ascii_of_mem_texts hu)]
  simp only [not_mem_ofText_header, htrailer, false_or, or_false]

/-- A unit yields its references, and no more than these and its own name unless a length reads as
a lower-case letter. -/
theorem ofBytes_bytes (u : CompiledUnit) (hu : ∀ t ∈ u.type :: u.references, t.Conventional)
    (e : Encoding) (he : e = .utf8 ∨ e = .latin1 ∨ e = .ascii) :
    (∀ r ∈ u.references, r.name ∈ Candidates.ofBytes e u.bytes) ∧
    ((∀ t ∈ u.type :: u.references,
        ¬ (97 ≤ t.name.length % 256 ∧ t.name.length % 256 ≤ 122)) →
      Candidates.ofBytes e u.bytes = .ofList ((u.type :: u.references).map (·.name))) := by
  have hmem {name : String} : name ∈ Candidates.ofBytes e u.bytes ↔ _ :=
    mem_ofBytes_iff hu (asciiCompatible_of_eq he)
  constructor
  · intro r hr
    have hconv := hu r (List.mem_cons_of_mem _ hr)
    exact hmem.mpr ⟨_, mem_texts_iff.mpr (.inr (.inl ⟨r, hr, rfl⟩)),
      (mem_ofText_reference hconv).mpr rfl⟩
  · intro hlow
    refine Std.ExtTreeSet.ext_mem fun name => ?_
    rw [hmem, Std.ExtTreeSet.mem_ofList, List.contains_iff_mem, List.mem_map]
    constructor
    · rintro ⟨s, hs, hname⟩
      rcases mem_texts_iff.mp hs with ⟨t, ht, rfl⟩ | ⟨r, hr, rfl⟩ | hplain
      · exact ⟨t, ht, ((mem_ofText_internal (hu t ht) (hlow t ht)).mp hname).symm⟩
      · have hr := List.mem_cons_of_mem u.type hr
        exact ⟨r, hr, ((mem_ofText_reference (hu r hr)).mp hname).symm⟩
      · have hplain := isPlain_of_mem (hu u.type List.mem_cons_self) hplain
        exact absurd hname (not_mem_ofText_numbered hplain.short hplain.slash_not_mem)
    · rintro ⟨t, ht, rfl⟩
      exact ⟨t.internal, mem_texts_iff.mpr (.inl ⟨t, ht, rfl⟩),
        (mem_ofText_internal (hu t ht) (hlow t ht)).mpr rfl⟩

end

def ofLength (n : Nat) : TypeName := ⟨String.ofList (['a', '.', 'B'] ++ List.replicate (n - 3) 'b')⟩

theorem length_ofLength (h : 3 ≤ n) : (ofLength n).name.length = n := by
  rw [ofLength, ← String.length_toList, String.toList_ofList]
  simp only [List.length_append, List.length_cons, List.length_nil, List.length_replicate]
  omega

theorem conventional_ofLength (h : 3 ≤ n) (h' : n ≤ 12285) : (ofLength n).Conventional where
  segments := by
    have hrest : Text.fields '.' (List.replicate (n - 3) 'b') = [List.replicate (n - 3) 'b'] :=
      Text.fields_of_not_mem (by simp)
    refine ⟨[['a']], 'B' :: List.replicate (n - 3) 'b', ?_, by simp, ?_, ?_⟩
    · rw [ofLength, String.toList_ofList]
      simp [Text.fields, hrest]
    · simpa using Grammar.cons_mem_package (c := 'a') (by decide) rfl
    · refine Grammar.mem_capitalised.mpr ⟨'B', _, by decide, fun x hx => ?_, rfl⟩
      rw [List.eq_of_mem_replicate hx]
      decide
  not_glued := by simp [ofLength]
  length_le := by rwa [length_ofLength h]

/-- The length of the first reference reads as a letter, that of the second ends in a slash. -/
def sample : CompiledUnit := ⟨ofLength 3, [ofLength 65, ofLength 303]⟩

theorem ofBytes_bytes_sample :
    (∀ t ∈ sample.type :: sample.references, t.Conventional) ∧
    (∀ t ∈ sample.type :: sample.references,
      ¬ (97 ≤ t.name.length % 256 ∧ t.name.length % 256 ≤ 122)) ∧
    (ofLength 303).name ∈ Candidates.ofBytes .ascii sample.bytes ∧
    Candidates.ofBytes .utf8 sample.bytes =
      .ofList [(ofLength 3).name, (ofLength 65).name, (ofLength 303).name] := by
  have hu : ∀ t ∈ sample.type :: sample.references, t.Conventional := by
    simp [sample, conventional_ofLength]
  have hlow : ∀ t ∈ sample.type :: sample.references,
      ¬ (97 ≤ t.name.length % 256 ∧ t.name.length % 256 ≤ 122) := by
    simp [sample, length_ofLength]
  exact ⟨hu, hlow, (ofBytes_bytes sample hu .ascii (.inr (.inr rfl))).1 _ (by simp [sample]),
    (ofBytes_bytes sample hu .utf8 (.inl rfl)).2 hlow⟩

end CompiledUnit

end RefScan
