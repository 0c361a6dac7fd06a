import Clausal.CommandLine.Run

/-!
# Lines of encoded text

Cutting the bytes of a text into lines and decoding each is cutting the text
itself, since no character but the line feed has the byte of one.
-/

namespace Clausal.CommandLine

/-- The bytes of a text. -/
def encode (cs : List Char) : List UInt8 := cs.flatMap String.utf8EncodeChar

theorem encode_toUTF8 (s : String) : s.toUTF8.data.toList = encode s.toList := by
  unfold encode String.toUTF8
  rw [← String.utf8Encode_toList, List.utf8Encode, List.data_toByteArray]

theorem decode?_encode (cs : List Char) : decode? (encode cs) = some cs := by
  have hbytes : (⟨(encode cs).toArray⟩ : ByteArray) = (String.ofList cs).toUTF8 := by
    rw [← String.toList_ofList (l := cs), ← encode_toUTF8]
    simp
  have hvalid : (String.ofList cs).toUTF8.IsValidUTF8 := (String.ofList cs).isValidUTF8
  unfold decode? String.fromUTF8?
  rw [hbytes, dif_pos hvalid]
  exact congrArg some String.toList_ofList

/-! ## Cutting -/

/-- A text in front of the first of some lines, which goes on from it. -/
def lead {α : Type} (w : List α) : List (List α) → List (List α)
  | [] => [w]
  | line :: lines => (w ++ line) :: lines

theorem lead_append {α : Type} (w v : List α) (lines : List (List α)) :
    lead (w ++ v) lines = lead w (lead v lines) := by
  cases lines <;> simp [lead]

theorem byteLines_cons (b : UInt8) (bytes : List UInt8) :
    byteLines (b :: bytes) =
      if b = 10 then [b] :: byteLines bytes else lead [b] (byteLines bytes) := by
  unfold byteLines
  rw [List.foldr_cons]
  split
  · rfl
  · split <;> simp_all [lead]

theorem byteLines_append {w : List UInt8} (hne : w ≠ []) (hw : 10 ∉ w) (bytes : List UInt8) :
    byteLines (w ++ bytes) = lead w (byteLines bytes) := by
  induction w with
  | nil => exact absurd rfl hne
  | cons b w ih =>
    simp only [List.mem_cons, not_or] at hw
    rw [List.cons_append, byteLines_cons, if_neg (Ne.symm hw.1)]
    by_cases h : w = []
    · subst h
      rfl
    · rw [ih h hw.2, ← lead_append]
      rfl

/-- The lines of a text, each with its line end; only the last one may lack it. -/
def charLines : List Char → List (List Char)
  | [] => []
  | c :: cs => if c = '\n' then [c] :: charLines cs else lead [c] (charLines cs)

theorem utf8EncodeChar_ne_nil (c : Char) : String.utf8EncodeChar c ≠ [] := by
  unfold String.utf8EncodeChar
  grind

theorem ofNat_ne_feed {n : Nat} (h : n % 256 ≠ 10) : 10 ≠ UInt8.ofNat n := by
  intro he
  have hn := congrArg UInt8.toNat he
  rw [UInt8.toNat_ofNat'] at hn
  exact h hn.symm

/-- Only the line feed has the byte of one: the bytes of longer encodings begin at 128. -/
theorem not_mem_utf8EncodeChar {c : Char} (hc : c ≠ '\n') : 10 ∉ String.utf8EncodeChar c := by
  have hval : c.val.toNat ≠ 10 := fun h => hc (Char.ext (UInt32.toNat_inj.mp h))
  unfold String.utf8EncodeChar
  dsimp only
  by_cases h1 : c.val.toNat ≤ 127
  · rw [if_pos h1, List.mem_singleton]
    exact ofNat_ne_feed (by omega)
  · by_cases h2 : c.val.toNat ≤ 2047
    · rw [if_neg h1, if_pos h2]
      simp only [List.mem_cons, List.not_mem_nil, or_false, not_or]
      exact ⟨ofNat_ne_feed (by omega), ofNat_ne_feed (by omega)⟩
    · by_cases h3 : c.val.toNat ≤ 65535
      · rw [if_neg h1, if_neg h2, if_pos h3]
        simp only [List.mem_cons, List.not_mem_nil, or_false, not_or]
        exact ⟨ofNat_ne_feed (by omega), ofNat_ne_feed (by omega), ofNat_ne_feed (by omega)⟩
      · rw [if_neg h1, if_neg h2, if_neg h3]
        simp only [List.mem_cons, List.not_mem_nil, or_false, not_or]
        exact ⟨ofNat_ne_feed (by omega), ofNat_ne_feed (by omega), ofNat_ne_feed (by omega),
          ofNat_ne_feed (by omega)⟩

theorem byteLines_encode (cs : List Char) : byteLines (encode cs) = (charLines cs).map encode := by
  induction cs with
  | nil => rfl
  | cons c cs ih =>
    have hcons : encode (c :: cs) = String.utf8EncodeChar c ++ encode cs := List.flatMap_cons
    unfold charLines
    by_cases hc : c = '\n'
    · subst hc
      have hfeed : encode ('\n' :: cs) = 10 :: encode cs := rfl
      rw [hfeed, byteLines_cons, ih]
      rfl
    · rw [hcons, byteLines_append (utf8EncodeChar_ne_nil c) (not_mem_utf8EncodeChar hc),
        ih, if_neg hc]
      cases charLines cs <;> simp [lead, encode]

section
variable {line : List Char} (h : '\n' ∉ line)
include h

theorem charLines_cons (cs : List Char) :
    charLines (line ++ '\n' :: cs) = (line ++ ['\n']) :: charLines cs := by
  induction line with
  | nil => rfl
  | cons c line ih =>
    simp only [List.mem_cons, not_or] at h
    rw [List.cons_append, charLines, if_neg (Ne.symm h.1), ih h.2]
    rfl

theorem charLines_last (hne : line ≠ []) : charLines line = [line] := by
  induction line with
  | nil => exact absurd rfl hne
  | cons c line ih =>
    simp only [List.mem_cons, not_or] at h
    rw [charLines, if_neg (Ne.symm h.1)]
    by_cases hl : line = []
    · subst hl
      rfl
    · rw [ih h.2 hl]
      rfl

end

theorem dropLineEnd_concat {line : List Char} {c : Char} (hn : c ≠ '\n') (hr : c ≠ '\r') :
    dropLineEnd (line ++ [c]) = line ++ [c] ∧
    dropLineEnd (line ++ [c] ++ ['\n']) = line ++ [c] := by
  unfold dropLineEnd
  simp [hn, hr]

/-- **Lines of a text.** A batch reads the lines of the text that is in the file. -/
theorem batchLines_encode (cs : List Char) :
    batchLines (encode cs) = ((charLines cs).map dropLineEnd).map some := by
  unfold batchLines
  rw [byteLines_encode]
  simp [decode?_encode]

end Clausal.CommandLine
