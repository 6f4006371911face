import DesignAtlas.Text.Blank

/-! # Texts

A text is the list of its characters. A text is cut into pieces at the characters that satisfy a
test: lines are the pieces between newlines, words are the nonempty pieces between blanks.
Collapsing a text writes its words with one space between them. Byte counts are those of the
UTF-8 encoding. -/

namespace DesignAtlas

/-- A text, as the list of its characters. -/
abbrev Text := List Char

/-- Puts an element in front of the first of some lists. -/
def consHead {α : Type} (a : α) : List (List α) → List (List α)
  | [] => [[a]]
  | l :: ls => (a :: l) :: ls

namespace Text

/-! ### Cutting -/

/-- The pieces of a text between the characters that satisfy `sep`; there is always at least
one. -/
def split (sep : Char → Bool) (t : Text) : List Text :=
  t.foldr (fun c ps => if sep c then [] :: ps else consHead c ps) [[]]

@[simp] theorem split_nil (sep : Char → Bool) : split sep [] = [[]] := rfl

theorem split_cons (sep : Char → Bool) (c : Char) (t : Text) :
    split sep (c :: t) = if sep c then [] :: split sep t else consHead c (split sep t) := rfl

/-- The lines of a text, without their newlines. -/
def lines (t : Text) : List Text := split (· == '\n') t

/-- The words of a text: its nonempty pieces between blanks. -/
def words (t : Text) : List Text := (split isBlank t).filter fun w => !w.isEmpty

/-! ### Trimming -/

/-- The text without the blanks in front of it. -/
def trimStart (t : Text) : Text := t.dropWhile isBlank

/-- The text without the blanks behind it. -/
def trimEnd (t : Text) : Text := (t.reverse.dropWhile isBlank).reverse

/-- The text without the blanks around it. -/
def trim (t : Text) : Text := trimEnd (trimStart t)

/-- The words of the text with one space between them. -/
def collapse (t : Text) : Text := List.intercalate [' '] (words t)

/-- The text without any of its blanks. -/
def squeeze (t : Text) : Text := t.filter fun c => !isBlank c

theorem length_trimStart_le (t : Text) : (trimStart t).length ≤ t.length :=
  (List.dropWhile_sublist _).length_le

/-! ### Bytes -/

/-- The number of bytes of the text in UTF-8. -/
def byteLength (t : Text) : Nat := t.foldr (fun c n => c.utf8Size + n) 0

/-- The text after its first `n` bytes. -/
def dropBytes : Nat → Text → Text
  | 0, t => t
  | _ + 1, [] => []
  | n + 1, c :: t => dropBytes (n + 1 - c.utf8Size) t

/-- The characters that begin in the first `n` bytes of the text. -/
def takeBytes : Nat → Text → Text
  | 0, _ => []
  | _ + 1, [] => []
  | n + 1, c :: t => c :: takeBytes (n + 1 - c.utf8Size) t

@[simp] theorem byteLength_nil : byteLength [] = 0 := rfl

@[simp] theorem byteLength_cons (c : Char) (t : Text) :
    byteLength (c :: t) = c.utf8Size + byteLength t := rfl

@[simp] theorem byteLength_append (a b : Text) :
    byteLength (a ++ b) = byteLength a + byteLength b := by
  induction a with
  | nil => rw [List.nil_append, byteLength_nil, Nat.zero_add]
  | cons c a ih => rw [List.cons_append, byteLength_cons, byteLength_cons, ih, Nat.add_assoc]

@[simp] theorem dropBytes_zero (t : Text) : dropBytes 0 t = t := by
  cases t <;> rfl

@[simp] theorem takeBytes_zero (t : Text) : takeBytes 0 t = [] := by
  cases t <;> rfl

theorem dropBytes_append (a b : Text) : dropBytes (byteLength a) (a ++ b) = b := by
  induction a with
  | nil => simp
  | cons c a ih =>
    have h := c.utf8Size_pos
    obtain ⟨n, hn⟩ : ∃ n, c.utf8Size + byteLength a = n + 1 := ⟨_, (Nat.succ_pred (by omega)).symm⟩
    rw [byteLength_cons, hn, List.cons_append, dropBytes, ← hn, Nat.add_sub_cancel_left, ih]

theorem takeBytes_append (a b : Text) : takeBytes (byteLength a) (a ++ b) = a := by
  induction a with
  | nil => simp
  | cons c a ih =>
    have h := c.utf8Size_pos
    obtain ⟨n, hn⟩ : ∃ n, c.utf8Size + byteLength a = n + 1 := ⟨_, (Nat.succ_pred (by omega)).symm⟩
    rw [byteLength_cons, hn, List.cons_append, takeBytes, ← hn, Nat.add_sub_cancel_left, ih]

end Text

end DesignAtlas
