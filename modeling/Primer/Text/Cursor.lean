/-!
What remains to be read of a text. A `Cursor` is a list of characters together with the number of
bytes they take in UTF-8, so that a place in the text can be named without walking to its end. Two
cursors with the same characters are equal.
-/

namespace Primer

/-- The number of bytes that the characters take in UTF-8. -/
def byteCount : List Char → Nat
  | [] => 0
  | c :: cs => c.utf8Size + byteCount cs

@[simp] theorem byteCount_nil : byteCount [] = 0 := rfl

@[simp] theorem byteCount_cons (c : Char) (cs : List Char) :
    byteCount (c :: cs) = c.utf8Size + byteCount cs := rfl

@[simp] theorem byteCount_append (cs ds : List Char) :
    byteCount (cs ++ ds) = byteCount cs + byteCount ds := by
  induction cs with
  | nil => simp
  | cons c cs ih => simp [ih, Nat.add_assoc]

/-- The unread part of a text and its size. -/
structure Cursor where
  chars : List Char
  bytes : Nat
  bytes_eq : bytes = byteCount chars

namespace Cursor

theorem ext {i j : Cursor} (h : i.chars = j.chars) : i = j := by
  cases i; cases j; simp_all

def ofString (text : String) : Cursor :=
  ⟨text.toList, byteCount text.toList, rfl⟩

/-- Moves over the next `n` characters. -/
def skip (n : Nat) (i : Cursor) : Cursor where
  chars := i.chars.drop n
  bytes := i.bytes - byteCount (i.chars.take n)
  bytes_eq := by
    have h : byteCount i.chars = byteCount (i.chars.take n) + byteCount (i.chars.drop n) := by
      rw [← byteCount_append, List.take_append_drop]
    rw [i.bytes_eq, h, Nat.add_sub_cancel_left]

@[simp] theorem chars_ofString (text : String) : (ofString text).chars = text.toList := rfl

@[simp] theorem chars_skip (n : Nat) (i : Cursor) : (i.skip n).chars = i.chars.drop n := rfl

end Cursor

/-- The first place at which `part` occurs in the characters. -/
def firstIndex? (part : List Char) : List Char → Option Nat
  | [] => none
  | c :: cs => if part.isPrefixOf (c :: cs) then some 0 else (firstIndex? part cs).map (· + 1)

end Primer
