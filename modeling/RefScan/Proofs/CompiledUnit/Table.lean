import RefScan.Proofs.CompiledUnit

/-!
# Every type path in a table is found

What else is in a table, and before and behind it, does not hide the path of a type: the tag before
its length is a delimiter, and so is the tag of the next text. Only its own length can get in the
way. If that ends in a lower-case letter, the path is found with the letter in front of it, and
else as it is (`mem_ofBytes_table`).
-/

namespace RefScan

open Candidate

namespace CompiledUnit

open Encoding (decodeLatin1)

def table (front : Bytes) (strings : List String) (back : Bytes) : Bytes :=
  front ++ strings.flatMap entry ++ back

variable {back : Bytes} {strings : List String} {s name : String} {P : TypePath}

theorem head_decodeLatin1_table (strings : List String)
    (hback : ∀ c ∈ (decodeLatin1 back).head?, isSegmentChar c = false) :
    ∀ c ∈ (decodeLatin1 (strings.flatMap entry ++ back)).head?, isSegmentChar c = false := by
  cases strings with
  | nil => exact hback
  | cons s strings =>
    intro c hc
    obtain rfl : '\x01' = c := Option.some.inj hc
    decide

/-- A text of a table that is ASCII can be searched with what follows it. -/
theorem mem_ofBytes_table_of_mem (front : Bytes) (hs : s ∈ strings)
    (hascii : ∀ c ∈ s.toList, c.toNat < 0x80)
    (hback : ∀ c ∈ (decodeLatin1 back).head?, isSegmentChar c = false) :
    ∃ v : List Char, (∀ c ∈ v.head?, isSegmentChar c = false) ∧
      ∀ name ∈ Candidates.ofText (numbered s ++ v),
        name ∈ Candidates.ofBytes .utf8 (table front strings back) := by
  obtain ⟨before, behind, rfl⟩ := List.append_of_mem hs
  refine ⟨_, head_decodeLatin1_table behind hback, fun name hname => ?_⟩
  have htag : IsDelimiter '\x01' := by decide
  have hdecode : decodeLatin1 (table front (before ++ s :: behind) back) =
      decodeLatin1 (front ++ before.flatMap entry) ++
        '\x01' :: (numbered s ++ decodeLatin1 (behind.flatMap entry ++ back)) := by
    rw [← List.cons_append, ← decodeLatin1_entry hascii, ← decodeLatin1_append,
      ← decodeLatin1_append, table, List.flatMap_append, List.flatMap_cons]
    simp only [List.append_assoc]
  rw [Encoding.utf8_asciiCompatible.ofBytes_eq Encoding.latin1_asciiCompatible]
  show name ∈ Candidates.ofText (decodeLatin1 _)
  rw [hdecode, Candidates.mem_ofText_append_delimiter htag]
  exact .inr hname

/-- The name that a type path has in a table: a letter at the end of its length belongs to it. -/
def tableName (P : TypePath) : String :=
  if (byteChar P.text.length).isLower then String.ofList (byteChar P.text.length :: P.name.toList)
  else P.name

theorem mem_ofText_byteChar_typePath (P : TypePath)
    (hv : ∀ c ∈ v.head?, isSegmentChar c = false) :
    name ∈ Candidates.ofText (byteChar P.text.length :: (P.text ++ v)) ↔
      name = tableName P ∨ name ∈ Candidates.ofText v := by
  rw [tableName]
  split
  · rename_i hlow
    have hne := ne_slash_of_isSegmentChar (Grammar.isSegmentChar_of_isLower hlow)
    obtain ⟨Q, hQ⟩ := P.exists_text_cons hlow
    have hname : String.ofList (byteChar P.text.length :: P.name.toList) = Q.name := by
      rw [TypePath.name, TypePath.name, String.toList_ofList, hQ]
      simp [Text.replace, hne]
    rw [← List.cons_append, ← hQ, hname]
    exact Candidates.mem_ofText_typePath Q hv
  · rename_i hlow
    rw [Candidates.mem_ofText_cons_of_not_isLower (Bool.eq_false_iff.mpr hlow)]
    exact Candidates.mem_ofText_typePath P hv

theorem mem_ofText_numbered_typePath (hs : s.toList = P.text) (h : s.length < 0x6100)
    (hv : ∀ c ∈ v.head?, isSegmentChar c = false) :
    name ∈ Candidates.ofText (numbered s ++ v) ↔
      name = tableName P ∨ name ∈ Candidates.ofText v := by
  rw [mem_ofText_numbered_append h, hs, ← mem_ofText_byteChar_typePath P hv, ← hs,
    String.length_toList]

/-- The path of a type in a table, whatever stands around it. If its length ends in a lower-case
letter, that is taken for the beginning of the path. -/
theorem mem_ofBytes_table (front : Bytes) {back : Bytes} {strings : List String} (P : TypePath)
    (hback : ∀ c ∈ (decodeLatin1 back).head?, isSegmentChar c = false)
    (hmem : String.ofList P.text ∈ strings) (hlen : P.text.length < 0x6100) :
    (¬ (97 ≤ P.text.length % 256 ∧ P.text.length % 256 ≤ 122) →
      P.name ∈ Candidates.ofBytes .utf8 (table front strings back)) ∧
    (97 ≤ P.text.length % 256 ∧ P.text.length % 256 ≤ 122 →
      String.ofList (byteChar P.text.length :: P.name.toList) ∈
        Candidates.ofBytes .utf8 (table front strings back)) := by
  have htext : (String.ofList P.text).toList = P.text := String.toList_ofList
  have hlength : (String.ofList P.text).length < 0x6100 := by
    rwa [← String.length_toList, htext]
  have hascii : ∀ c ∈ (String.ofList P.text).toList, c.toNat < 0x80 := by
    rw [htext]
    exact fun c hc => P.ascii hc
  obtain ⟨v, hv, hfound⟩ := mem_ofBytes_table_of_mem front hmem hascii hback
  have hname : tableName P ∈ Candidates.ofBytes .utf8 (table front strings back) :=
    hfound _ ((mem_ofText_numbered_typePath htext hlength hv).mpr (.inl rfl))
  constructor
  · intro hlow
    rwa [tableName, if_neg (mt isLower_byteChar.mp hlow)] at hname
  · intro hlow
    rwa [tableName, if_pos (isLower_byteChar.mpr hlow)] at hname

theorem exists_typePath_ofLength (h : 3 ≤ n) (h' : n ≤ 12285) :
    ∃ P : TypePath, String.ofList P.text = (ofLength n).internal ∧ P.text.length = n ∧
      P.name = (ofLength n).name := by
  obtain ⟨P, htext, -, hname⟩ := (conventional_ofLength h h').exists_typePath
  refine ⟨P, by rw [← htext, String.ofList_toList], ?_, hname⟩
  rw [← htext, String.length_toList, TypeName.length_internal, length_ofLength h]

/-- Between texts of other kinds, a path whose length ends in a slash and one whose length is a
letter. -/
theorem mem_ofBytes_table_mixed :
    let strings := ["ä/b", (ofLength 97).internal, (ofLength 303).internal, "()V"]
    (∀ c ∈ (decodeLatin1 trailer).head?, isSegmentChar c = false) ∧
      (ofLength 303).name ∈ Candidates.ofBytes .utf8 (table header strings trailer) ∧
      String.ofList ('a' :: (ofLength 97).name.toList) ∈
        Candidates.ofBytes .utf8 (table header strings trailer) := by
  intro strings
  have hback : ∀ c ∈ (decodeLatin1 trailer).head?, isSegmentChar c = false := by
    intro c hc
    obtain rfl : '\x00' = c := Option.some.inj hc
    decide
  obtain ⟨P, hP, hlen, hname⟩ := exists_typePath_ofLength (n := 303) (by decide) (by decide)
  obtain ⟨Q, hQ, hlen', hname'⟩ := exists_typePath_ofLength (n := 97) (by decide) (by decide)
  have hmem : String.ofList P.text ∈ strings := by simp [strings, hP]
  have hmem' : String.ofList Q.text ∈ strings := by simp [strings, hQ]
  have hplain := (mem_ofBytes_table header P hback hmem (by omega)).1 (by omega)
  have hletter := (mem_ofBytes_table header Q hback hmem' (by omega)).2 (by omega)
  rw [hname] at hplain
  rw [hlen', hname'] at hletter
  exact ⟨hback, hplain, hletter⟩

theorem not_mem_ofBytes_of_letter {u : CompiledUnit} (hu : u.type.Conventional)
    (hreferences : u.references = [])
    (hlow : 97 ≤ u.type.name.length % 256 ∧ u.type.name.length % 256 ≤ 122) :
    u.type.name ∉ Candidates.ofBytes .utf8 u.bytes := by
  have hall : ∀ t ∈ u.type :: u.references, t.Conventional := by
    simpa [hreferences] using hu
  rw [mem_ofBytes_iff hall Encoding.utf8_asciiCompatible]
  rintro ⟨s, hs, hname⟩
  rcases mem_texts_iff.mp hs with ⟨t, ht, rfl⟩ | ⟨r, hr, -⟩ | hplain
  · obtain rfl : t = u.type := by simpa [hreferences] using ht
    obtain ⟨P, htext, -, hP⟩ := hu.exists_typePath
    have hlen : P.text.length = u.type.name.length := by
      rw [← htext, String.length_toList, TypeName.length_internal]
    have hshort : u.type.internal.length < 0x6100 := by
      have := hu.length_le
      rw [TypeName.length_internal]
      omega
    rw [← List.append_nil (numbered _),
      mem_ofText_numbered_typePath htext hshort (by simp)] at hname
    have heq := hname.resolve_right Candidates.not_mem_ofText_nil
    rw [tableName, hlen, if_pos (isLower_byteChar.mpr hlow), hP] at heq
    simpa using congrArg String.length heq
  · rw [hreferences] at hr
    cases hr
  · have hplain := isPlain_of_mem hu hplain
    exact not_mem_ofText_numbered hplain.short hplain.slash_not_mem hname

/-- The length of the path reads as the letter `a`. -/
theorem ofBytes_table_of_letter :
    let u : CompiledUnit := ⟨ofLength 97, []⟩
    u.bytes = table (header ++ word (u.texts.length + 1)) u.texts trailer ∧
      ∃ P : TypePath, String.ofList P.text = u.type.internal ∧ String.ofList P.text ∈ u.texts ∧
        P.text.length = 97 ∧ P.name ∉ Candidates.ofBytes .utf8 u.bytes := by
  intro u
  obtain ⟨P, htext, hlen, hname⟩ := exists_typePath_ofLength (n := 97) (by decide) (by decide)
  have hu : u.type.Conventional := conventional_ofLength (by decide) (by decide)
  refine ⟨rfl, P, htext, htext ▸ List.mem_cons_self, hlen, ?_⟩
  rw [hname]
  refine not_mem_ofBytes_of_letter hu rfl ?_
  rw [length_ofLength (by decide)]
  decide

end CompiledUnit

end RefScan
