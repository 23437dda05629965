import KeepRules.Text.Lines

/-! # Encoded texts

The byte of a line feed stands in the encoding of no other character, so a content that is the
encoding of a text is cut where the text is cut, and each line is decoded to the text's line
(`byteLines_toUTF8`). -/

set_option autoImplicit false

namespace KeepRules.Text

open String (utf8EncodeChar)

theorem utf8EncodeChar_ne_nil (c : Char) : utf8EncodeChar c ≠ [] := by
  unfold utf8EncodeChar
  dsimp only
  split
  · exact List.cons_ne_nil _ _
  · split
    · exact List.cons_ne_nil _ _
    · split <;> exact List.cons_ne_nil _ _

theorem lineFeed_ne_ofNat {n : Nat} (h : 128 ≤ n) (h' : n < 256) :
    (0x0A : UInt8) ≠ UInt8.ofNat n := by
  intro he
  have hn : (0x0A : UInt8).toNat = (UInt8.ofNat n).toNat := congrArg UInt8.toNat he
  rw [UInt8.toNat_ofNat_of_lt' h', show (0x0A : UInt8).toNat = 10 from rfl] at hn
  omega

/-- Every byte of a longer encoding is at least 128. -/
theorem mem_utf8EncodeChar_iff {c : Char} : 0x0A ∈ utf8EncodeChar c ↔ c = '\n' := by
  constructor
  · intro h
    unfold utf8EncodeChar at h
    dsimp only at h
    split at h
    · next hc =>
      have hv : (0x0A : UInt8).toNat = (UInt8.ofNat c.val.toNat).toNat :=
        congrArg UInt8.toNat (List.mem_singleton.1 h)
      rw [UInt8.toNat_ofNat_of_lt' (by omega : c.val.toNat < 256)] at hv
      exact Char.ext (UInt32.toNat_inj.1 hv.symm)
    · exfalso
      split at h
      · simp only [List.mem_cons, List.not_mem_nil, or_false] at h
        rcases h with h | h <;> exact lineFeed_ne_ofNat (by omega) (by omega) h
      · split at h
        · simp only [List.mem_cons, List.not_mem_nil, or_false] at h
          rcases h with h | h | h <;> exact lineFeed_ne_ofNat (by omega) (by omega) h
        · simp only [List.mem_cons, List.not_mem_nil, or_false] at h
          rcases h with h | h | h | h <;> exact lineFeed_ne_ofNat (by omega) (by omega) h
  · rintro rfl
    decide

theorem chunks_append_of_forall {α : Type} {p : α → Bool} {l : List α} (hne : l ≠ [])
    (h : ∀ a ∈ l, p a = false) (rest : List α) :
    chunks p (l ++ rest) =
      match chunks p rest with
      | [] => [l]
      | piece :: pieces => (l ++ piece) :: pieces := by
  induction l with
  | nil => exact absurd rfl hne
  | cons a l ih =>
    rw [List.cons_append, chunks, h a List.mem_cons_self]
    cases l with
    | nil => rw [List.nil_append]; rfl
    | cons b l =>
      rw [ih (List.cons_ne_nil b l) fun d hd => h d (List.mem_cons_of_mem _ hd)]
      cases chunks p rest <;> simp

theorem chunks_flatMap_utf8EncodeChar (cs : List Char) :
    chunks (· == 0x0A) (cs.flatMap utf8EncodeChar) =
      (chunks (· == '\n') cs).map (List.flatMap utf8EncodeChar) := by
  induction cs with
  | nil => rfl
  | cons c cs ih =>
    rw [List.flatMap_cons]
    by_cases hc : c = '\n'
    · subst hc
      have he : utf8EncodeChar '\n' = [0x0A] := by decide
      simp [he, chunks, ih]
    · have hnot : ∀ b ∈ utf8EncodeChar c, (b == 0x0A) = false := by
        intro b hb
        rw [beq_eq_false_iff_ne]
        rintro rfl
        exact hc (mem_utf8EncodeChar_iff.1 hb)
      rw [chunks_append_of_forall (utf8EncodeChar_ne_nil c) hnot, ih, chunks]
      simp only [beq_iff_eq, hc, if_false]
      cases chunks (· == '\n') cs <;> simp

theorem fromUTF8?_flatMap (cs : List Char) :
    String.fromUTF8? ⟨(cs.flatMap utf8EncodeChar).toArray⟩ = some (String.ofList cs) := by
  have hb : (⟨(cs.flatMap utf8EncodeChar).toArray⟩ : ByteArray) = cs.utf8Encode := by
    rw [List.utf8Encode]
    ext1
    simp
  rw [hb, String.fromUTF8?, dif_pos ⟨cs, rfl⟩]
  rfl

theorem toList_toUTF8 (text : String) :
    text.toUTF8.data.toList = text.toList.flatMap utf8EncodeChar := by
  have h : text.toUTF8 = (String.ofList text.toList).toByteArray := by
    rw [String.ofList_toList]
    rfl
  rw [h, String.toByteArray_ofList, List.utf8Encode]
  simp

/-- The lines of an encoded text are the lines of the text. -/
theorem byteLines_toUTF8 (text : String) : byteLines text.toUTF8 = (lines text).map some := by
  rw [byteLines, toList_toUTF8, chunks_flatMap_utf8EncodeChar, lines, List.map_map, List.map_map]
  refine List.map_congr_left fun piece _ => ?_
  rw [Function.comp_apply, Function.comp_apply, fromUTF8?_flatMap, Option.map_some,
    String.toList_ofList]

end KeepRules.Text
