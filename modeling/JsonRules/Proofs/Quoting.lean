import JsonRules.Json.Source

/-!
Quoted strings are read as they were written.

Each character is one piece of a quoted string, the character itself or its number
(`readBody_escape`), and the pieces of a text are joined to that text again.
-/

namespace JsonRules

namespace Text

/-- The control characters that have no letter of their own. -/
def isNumbered (c : Char) : Bool :=
  c.toNat < 32 && c ≠ '\n' && c ≠ '\r' && c ≠ '\t' && c ≠ '\x08' && c ≠ '\x0c'

/-- The piece of a quoted string that a character is written as. -/
def pieceOf (c : Char) : Piece := if isNumbered c then .unit c.toNat else .char c

theorem unitOfHex?_hexDigits :
    ∀ n < 32, unitOfHex? '0' '0' (hexDigit (n / 16)) (hexDigit (n % 16)) = some n := by
  decide

/-- A letter behind a backslash is read as the character that it stands for. -/
theorem readBody_letter {letter c : Char} (hletter : letter ≠ 'u')
    (h : unescape? letter = some c) (text : List Char) :
    readBody ('\\' :: letter :: text) =
      (readBody text).map fun (pieces, rest) => (.char c :: pieces, rest) := by
  rw [readBody, h]
  · cases readBody text <;> rfl
  · intro _ _ _ _ _ hu
    exact absurd hu hletter

/-- An escaped character is read as its piece. -/
theorem readBody_escape (c : Char) (text : List Char) :
    readBody (escape c ++ text) =
      (readBody text).map fun (pieces, rest) => (pieceOf c :: pieces, rest) := by
  unfold escape
  split
  iterate 7 exact readBody_letter (by decide) rfl text
  rename_i hmark hbackslash hn hr ht hb hf
  split
  · rename_i hsmall
    have hnumbered : isNumbered c = true := by
      simp_all [isNumbered]
    have hunit := unitOfHex?_hexDigits c.toNat hsmall
    simp only [List.cons_append, List.nil_append, readBody, hunit, pieceOf, if_pos hnumbered]
    cases readBody text <;> rfl
  · rename_i hlarge
    have hplain : isNumbered c = false := by
      simp [isNumbered, hlarge]
    rw [List.singleton_append, readBody, if_neg hlarge, pieceOf, hplain]
    · cases readBody text <;> rfl
    · exact hmark
    · intro _ _ _ _ _ hc
      exact absurd hc hbackslash
    · intro _ _ hc
      exact absurd hc hbackslash

theorem assemble_pieceOf (c : Char) (pieces : List Piece) :
    assemble (pieceOf c :: pieces) = (assemble pieces).map (c :: ·) := by
  unfold pieceOf
  split
  · rename_i hnumbered
    have hsmall : c.toNat < 32 := by
      simp [isNumbered] at hnumbered
      omega
    have hhigh : isHighSurrogate c.toNat = false := by
      simp [isHighSurrogate]
      omega
    have hlow : isLowSurrogate c.toNat = false := by
      simp [isLowSurrogate]
      omega
    rw [assemble.eq_def]
    simp [hhigh, hlow]
  · rw [assemble]

theorem readBody_flatMap_escape (text rest : List Char) :
    readBody (text.flatMap escape ++ '"' :: rest) = some (text.map pieceOf, rest) := by
  induction text with
  | nil => rfl
  | cons c cs ih =>
      rw [List.flatMap_cons, List.append_assoc, readBody_escape, ih]
      rfl

theorem assemble_map_pieceOf (text : List Char) : assemble (text.map pieceOf) = some text := by
  induction text with
  | nil => rfl
  | cons c cs ih =>
      rw [List.map_cons, assemble_pieceOf, ih]
      rfl

end Text

/-- A quoted text is read as that text, and what follows is left. -/
theorem JsonSource.readString_flatMap_escape (s : String) (rest : List Char) :
    JsonSource.readString (s.toList.flatMap Text.escape ++ '"' :: rest) = some (some s, rest) := by
  rw [readString, Text.readBody_flatMap_escape]
  simp [Text.assemble_map_pieceOf]

end JsonRules
