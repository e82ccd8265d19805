/-
**Lossy decoding of UTF-8.**

A text is written as its UTF-8 bytes and read back by a decoder that never faults: every maximal
broken sequence becomes one replacement character `U+FFFD`.  Two facts are all that a wire format
needs.  What was written is read back, whatever the text is; and a text that lost its tail cannot
be mistaken for the whole one, since the replacement characters add only a few bytes.

Main results:

* `fromUtf8Lossy_asBytes` — reading back what was written;
* `length_asBytes_fromUtf8Lossy_take` — a prefix of a text decodes to at most a dozen bytes more
  than it has.
-/

import Mathlib

set_option autoImplicit false

/-! ### Encoding -/

def asBytes (s : String) : List UInt8 := s.toList.flatMap String.utf8EncodeChar

/-! ### Decoding -/

/-- A continuation byte, `10xxxxxx`. -/
def isCont (b : UInt8) : Bool := b &&& 192 == 128

/-- The second bytes that may follow the head `b` of a sequence of three or four bytes. -/
def secondOk (b c : UInt8) : Bool :=
  if b = 0xE0 then 0xA0 ≤ c && c ≤ 0xBF
  else if b = 0xED then 0x80 ≤ c && c ≤ 0x9F
  else if b = 0xF0 then 0x90 ≤ c && c ≤ 0xBF
  else if b = 0xF4 then 0x80 ≤ c && c ≤ 0x8F
  else 0x80 ≤ c && c ≤ 0xBF

/-- The number of bytes of the broken sequence at the head of a byte string that no character
starts: the head, and what could still have continued it. -/
def brokenLen : List UInt8 → ℕ
  | [] => 0
  | b :: r =>
      if 0xE0 ≤ b ∧ b ≤ 0xEF then
        match r with
        | c :: _ => if secondOk b c then 2 else 1
        | [] => 1
      else if 0xF0 ≤ b ∧ b ≤ 0xF4 then
        match r with
        | c :: d :: _ => if secondOk b c then (if isCont d then 3 else 2) else 1
        | [c] => if secondOk b c then 2 else 1
        | [] => 1
      else 1

/-- The character at the head of a byte string, if one starts there. -/
def headChar (bs : List UInt8) : Option Char := bs.toByteArray.utf8DecodeChar? 0

/-- The characters of a byte string whose first `skip` bytes belong to a sequence that was already
dealt with. -/
def lossyChars : ℕ → List UInt8 → List Char
  | _, [] => []
  | skip + 1, _ :: bs => lossyChars skip bs
  | 0, b :: bs =>
      match headChar (b :: bs) with
      | some c => c :: lossyChars (c.utf8Size - 1) bs
      | none => '�' :: lossyChars (brokenLen (b :: bs) - 1) bs

/-- Decode a byte string as UTF-8, with `U+FFFD` for every broken sequence. -/
def fromUtf8Lossy (bs : List UInt8) : String := String.ofList (lossyChars 0 bs)

lemma headChar_utf8EncodeChar_append (c : Char) (bs : List UInt8) :
    headChar (String.utf8EncodeChar c ++ bs) = some c := by
  rw [headChar, List.toByteArray_append, ByteArray.utf8DecodeChar?_utf8EncodeChar_append]

lemma lossyChars_append (c bs : List UInt8) :
    lossyChars c.length (c ++ bs) = lossyChars 0 bs := by
  induction c with
  | nil => rfl
  | cons b c ih => simpa [lossyChars] using ih

lemma lossyChars_utf8EncodeChar_append (c : Char) (bs : List UInt8) :
    lossyChars 0 (String.utf8EncodeChar c ++ bs) = c :: lossyChars 0 bs := by
  have hhead := headChar_utf8EncodeChar_append c bs
  have hlen : (String.utf8EncodeChar c).length = c.utf8Size := String.length_utf8EncodeChar c
  have hpos := c.utf8Size_pos
  match hc : String.utf8EncodeChar c with
  | [] =>
    rw [hc] at hlen
    simp at hlen
    omega
  | b :: t =>
    rw [hc] at hhead hlen
    have ht : c.utf8Size - 1 = t.length := by simp at hlen; omega
    rw [List.cons_append] at hhead ⊢
    rw [lossyChars, hhead]
    simp only [ht, lossyChars_append]

lemma lossyChars_flatMap_utf8EncodeChar (cs : List Char) :
    lossyChars 0 (cs.flatMap String.utf8EncodeChar) = cs := by
  induction cs with
  | nil => rfl
  | cons c cs ih => rw [List.flatMap_cons, lossyChars_utf8EncodeChar_append, ih]

/-- **What was written is read back.** -/
theorem fromUtf8Lossy_asBytes (s : String) : fromUtf8Lossy (asBytes s) = s := by
  rw [fromUtf8Lossy, asBytes, lossyChars_flatMap_utf8EncodeChar, String.ofList_toList]

/-! ### Texts that lost their tail -/

lemma length_lossyChars_le (skip : ℕ) (bs : List UInt8) :
    (lossyChars skip bs).length ≤ bs.length := by
  induction bs generalizing skip with
  | nil => simp [lossyChars]
  | cons b bs ih =>
    cases skip with
    | zero =>
      rw [lossyChars]
      split
      · simpa using ih _
      · simpa using ih _
    | succ skip =>
      rw [lossyChars]
      have := ih skip
      simp only [List.length_cons]
      omega

lemma length_flatMap_utf8EncodeChar_le (cs : List Char) :
    (cs.flatMap String.utf8EncodeChar).length ≤ 4 * cs.length := by
  induction cs with
  | nil => simp
  | cons c cs ih =>
    have h := c.utf8Size_le_four
    simp only [List.flatMap_cons, List.length_append, String.length_utf8EncodeChar,
      List.length_cons]
    omega

lemma length_flatMap_lossyChars_take (cs : List Char) (k : ℕ) :
    ((lossyChars 0 ((cs.flatMap String.utf8EncodeChar).take k)).flatMap
      String.utf8EncodeChar).length ≤ k + 12 := by
  induction cs generalizing k with
  | nil => simp [lossyChars]
  | cons c cs ih =>
    have hlen : (String.utf8EncodeChar c).length = c.utf8Size := String.length_utf8EncodeChar c
    have h4 := c.utf8Size_le_four
    rw [List.flatMap_cons]
    by_cases hk : c.utf8Size ≤ k
    · -- the cut is behind the first character
      rw [List.take_append, List.take_of_length_le (by omega), lossyChars_utf8EncodeChar_append,
        List.flatMap_cons, List.length_append, hlen]
      have := ih (k - c.utf8Size)
      omega
    · -- the cut is inside the first character: at most three bytes are left
      have hshort : (((String.utf8EncodeChar c ++ cs.flatMap String.utf8EncodeChar)).take
          k).length ≤ 3 := by
        rw [List.length_take]
        omega
      have h₁ := length_lossyChars_le 0
        ((String.utf8EncodeChar c ++ cs.flatMap String.utf8EncodeChar).take k)
      have h₂ := length_flatMap_utf8EncodeChar_le
        (lossyChars 0 ((String.utf8EncodeChar c ++ cs.flatMap String.utf8EncodeChar).take k))
      omega

lemma length_asBytes_fromUtf8Lossy_take (s : String) (k : ℕ) :
    (asBytes (fromUtf8Lossy ((asBytes s).take k))).length ≤ k + 12 := by
  rw [fromUtf8Lossy, asBytes, String.toList_ofList]
  exact length_flatMap_lossyChars_take s.toList k
