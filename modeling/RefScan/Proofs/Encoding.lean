import RefScan.Proofs.Candidate
import RefScan.Proofs.Text.Utf8

/-!
# Encodings that contain ASCII

UTF-8, Latin-1 and ASCII read the bytes below `0x80` alike. They differ in what they make of the
others, but it is never ASCII and never nothing (`AsciiCompatible`). Only ASCII counts in a path,
so the candidates in a byte sequence are the same in all three
(`ofBytes_eq_of_ascii_encodings`).
-/

namespace RefScan

namespace Encoding

/-- Bytes below `0x80` stand for themselves and separate what is before them from what is behind.
A run of other bytes reads as one or more characters beyond ASCII. -/
structure AsciiCompatible (e : Encoding) : Prop where
  nil : e.decode [] = []
  ascii : ∀ {b : UInt8}, b < 0x80 → ∀ u v : Bytes,
    e.decode (u ++ b :: v) = e.decode u ++ Char.ofNat b.toNat :: e.decode v
  high : ∀ {r : Bytes}, r ≠ [] → (∀ b ∈ r, 0x80 ≤ b) →
    e.decode r ≠ [] ∧ ∀ c ∈ e.decode r, 0x80 ≤ c.toNat

theorem utf8_asciiCompatible : AsciiCompatible .utf8 where
  nil := rfl
  ascii hb u v := Text.Utf8.decodeFrom_append_ascii (by simp) hb u v
  high hne hr :=
    ⟨Text.Utf8.decodeFrom_ne_nil (by simp) hr (.inr hne),
      fun _ hc => Text.Utf8.not_ascii_of_mem_decodeFrom (by simp) hr hc⟩

theorem toNat_ofNat_of_byte (b : UInt8) : (Char.ofNat b.toNat).toNat = b.toNat := by
  have := b.toNat_lt
  exact Text.Utf8.toNat_ofNat_of_scalar (.inl (by omega))

theorem asciiCompatible_of_map {e : Encoding} {f : UInt8 → Char}
    (he : ∀ bytes, e.decode bytes = bytes.map f)
    (hlow : ∀ {b}, b < 0x80 → f b = Char.ofNat b.toNat)
    (hhigh : ∀ {b}, 0x80 ≤ b → 0x80 ≤ (f b).toNat) : AsciiCompatible e where
  nil := he []
  ascii hb u v := by simp [he, hlow hb]
  high hne hr := by
    rw [he]
    refine ⟨by simpa using hne, fun c hc => ?_⟩
    obtain ⟨b, hb, rfl⟩ := List.mem_map.mp hc
    exact hhigh (hr b hb)

theorem latin1_asciiCompatible : AsciiCompatible .latin1 :=
  asciiCompatible_of_map (f := fun b => Char.ofNat b.toNat) (fun _ => rfl) (fun _ => rfl)
    fun hb => by
      rw [toNat_ofNat_of_byte]
      exact UInt8.le_iff_toNat_le.mp hb

theorem ascii_asciiCompatible : AsciiCompatible .ascii :=
  asciiCompatible_of_map (f := fun b => if b < 0x80 then Char.ofNat b.toNat else Text.replacement)
    (fun _ => rfl) (fun hb => if_pos hb) fun hb => by
      rw [if_neg (UInt8.not_lt.mpr hb)]
      exact Text.Utf8.toNat_replacement

namespace AsciiCompatible

variable {e e' : Encoding} {r : Bytes}

theorem mem_ofText_run (h : AsciiCompatible e) (hne : r ≠ []) (hr : ∀ b ∈ r, 0x80 ≤ b)
    (u v : List Char) : name ∈ Candidates.ofText (u ++ (e.decode r ++ v)) ↔
      name ∈ Candidates.ofText u ∨ name ∈ Candidates.ofText v := by
  obtain ⟨hdecode, hchars⟩ := h.high hne hr
  exact Candidates.mem_ofText_delimited hdecode
    (fun c hc => Candidate.isDelimiter_of_not_ascii (hchars c hc)) u v

theorem mem_ofText_decode_iff (h : AsciiCompatible e) (h' : AsciiCompatible e') (u : List Char)
    (hr : ∀ b ∈ r, 0x80 ≤ b) (bytes : Bytes) :
    name ∈ Candidates.ofText (u ++ e.decode (r ++ bytes)) ↔
      name ∈ Candidates.ofText (u ++ e'.decode (r ++ bytes)) := by
  -- the text so far is `u`, which both have read in the same way, and then a run `r`, which they
  -- may read differently
  induction bytes generalizing u r with
  | nil =>
    rw [List.append_nil]
    by_cases hne : r = []
    · rw [hne, h.nil, h'.nil]
    · rw [← List.append_nil (e.decode r), ← List.append_nil (e'.decode r),
        h.mem_ofText_run hne hr, h'.mem_ofText_run hne hr]
  | cons b bytes ih =>
    by_cases hb : b < 0x80
    · -- the text of the run is over: only the character of `b` matters for what comes
      have hrest (u : List Char) := ih (r := []) (u ++ [Char.ofNat b.toNat]) (by simp)
      simp only [List.nil_append, List.append_assoc, List.singleton_append] at hrest
      rw [h.ascii hb, h'.ascii hb]
      by_cases hne : r = []
      · simp only [hne, h.nil, h'.nil, List.nil_append]
        exact hrest u
      · rw [h.mem_ofText_run hne hr, h'.mem_ofText_run hne hr]
        exact or_congr_right (hrest [])
    · rw [List.append_cons]
      refine ih u fun x hx => ?_
      rcases List.mem_append.mp hx with hx | hx
      · exact hr x hx
      · rw [List.mem_singleton.mp hx]
        exact UInt8.not_lt.mp hb

theorem ofBytes_eq (h : AsciiCompatible e) (h' : AsciiCompatible e') (bytes : Bytes) :
    Candidates.ofBytes e bytes = Candidates.ofBytes e' bytes := by
  exact Std.ExtTreeSet.ext_mem fun name =>
    mem_ofText_decode_iff (r := []) h h' [] (by simp) bytes

end AsciiCompatible

end Encoding

/-- UTF-8, Latin-1 and ASCII yield the same candidates from any bytes, well-formed or not. -/
theorem Candidates.ofBytes_eq_of_ascii_encodings :
    Encoding.utf8.AsciiCompatible ∧ Encoding.latin1.AsciiCompatible ∧
      Encoding.ascii.AsciiCompatible ∧
    ∀ bytes, ofBytes .utf8 bytes = ofBytes .latin1 bytes ∧
      ofBytes .latin1 bytes = ofBytes .ascii bytes := by
  refine ⟨Encoding.utf8_asciiCompatible, Encoding.latin1_asciiCompatible,
    Encoding.ascii_asciiCompatible, fun bytes => ⟨?_, ?_⟩⟩
  · exact Encoding.utf8_asciiCompatible.ofBytes_eq Encoding.latin1_asciiCompatible bytes
  · exact Encoding.latin1_asciiCompatible.ofBytes_eq Encoding.ascii_asciiCompatible bytes

end RefScan
