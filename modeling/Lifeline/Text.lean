/-! Texts are counted in the bytes of their UTF-8 form. -/

namespace Lifeline.Text

/-- This is the number of bytes that a text takes in UTF-8. -/
def byteCount : List Char → Nat
  | [] => 0
  | head :: rest => head.utf8Size + byteCount rest

@[simp] theorem byteCount_nil : byteCount [] = 0 := rfl

@[simp] theorem byteCount_cons (head : Char) (rest : List Char) :
    byteCount (head :: rest) = head.utf8Size + byteCount rest := rfl

@[simp] theorem byteCount_append (first second : List Char) :
    byteCount (first ++ second) = byteCount first + byteCount second := by
  induction first with
  | nil => simp
  | cons head rest ih => simp [ih, Nat.add_assoc]

/-- A character takes at least one byte, and so only the empty text takes none. -/
theorem byteCount_eq_zero_iff (text : List Char) : byteCount text = 0 ↔ text = [] := by
  cases text with
  | nil => simp
  | cons head rest =>
      have positive := head.utf8Size_pos
      simp only [byteCount_cons, reduceCtorEq, iff_false]
      omega

/-- The count is the size of the encoded text. -/
theorem byteCount_eq_utf8ByteSize_ofList (text : List Char) :
    byteCount text = (String.ofList text).utf8ByteSize := by
  induction text with
  | nil => rfl
  | cons head rest ih =>
      rw [byteCount_cons, ih, String.ofList_cons, String.utf8ByteSize_append,
        String.utf8ByteSize_singleton]

/-- The count agrees with the size that a string has in memory. -/
theorem byteCount_toList (text : String) : byteCount text.toList = text.utf8ByteSize := by
  rw [byteCount_eq_utf8ByteSize_ofList, String.ofList_toList]

end Lifeline.Text
