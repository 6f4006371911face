import DesignAtlas.Proofs.Position.Behind

/-! # Checked accesses

Reading a design cuts texts at byte offsets, takes tokens and words by their index and counts
brackets down. Each of these accesses asks something of its arguments: a slice lies inside its text
and between two characters, an index is below the length, a depth to be lowered is positive. The
definitions of the library are total, so they would pass over an access that asks in vain. Here the
accesses check what they ask and answer with a fault when it does not hold.

The other modules of this folder read a design through checked accesses only, and each checked
reader is shown to be the plain one with no fault. -/

namespace DesignAtlas

namespace Text

/-- Whether a character begins `n` bytes from the front of the text, or the text ends there. -/
def isCut : Text → Nat → Bool
  | _, 0 => true
  | [], _ + 1 => false
  | c :: t, n + 1 => decide (c.utf8Size ≤ n + 1) && isCut t (n + 1 - c.utf8Size)

theorem isCut_cons_iff {c : Char} {t : Text} {n : Nat} :
    IsCut (c :: t) (n + 1) ↔ c.utf8Size ≤ n + 1 ∧ IsCut t (n + 1 - c.utf8Size) := by
  constructor
  · rintro ⟨a, b, hab, hn⟩
    rcases List.cons_eq_append_iff.mp hab with ⟨rfl, -⟩ | ⟨a, rfl, rfl⟩
    · cases hn
    · rw [byteLength_cons] at hn
      exact ⟨by omega, a, b, rfl, by omega⟩
  · rintro ⟨hle, a, b, rfl, hn⟩
    exact ⟨c :: a, b, rfl, by rw [byteLength_cons]; omega⟩

theorem isCut_iff : ∀ {t : Text} {n : Nat}, isCut t n = true ↔ IsCut t n
  | t, 0 => iff_of_true (by unfold isCut; rfl) (isCut_zero t)
  | [], n + 1 => by
    refine iff_of_false (by simp [isCut]) ?_
    rintro ⟨a, b, hab, hn⟩
    rw [(List.append_eq_nil_iff.mp hab.symm).1] at hn
    cases hn
  | c :: t, n + 1 => by
    rw [isCut_cons_iff, ← isCut_iff, isCut, Bool.and_eq_true, decide_eq_true_eq]

instance (t : Text) (n : Nat) : Decidable (t.IsCut n) := decidable_of_iff _ isCut_iff

theorem isCut_append (a b : Text) : (a ++ b).IsCut a.byteLength := ⟨a, b, rfl, rfl⟩

/-- The number of bytes in front of the first character that satisfies `p`. -/
def find? (p : Char → Bool) : Text → Option Nat
  | [] => none
  | c :: t => if p c then some 0 else (find? p t).map (c.utf8Size + ·)

theorem find?_eq (p : Char → Bool) (t : Text) :
    find? p t = if (t.dropWhile fun c => !p c) = [] then none
      else some (byteLength (t.takeWhile fun c => !p c)) := by
  induction t with
  | nil => rfl
  | cons c t ih =>
    unfold find?
    by_cases hc : p c = true
    · simp [hc]
    · rw [if_neg hc, ih, List.dropWhile_cons_of_pos (by simp [hc]),
        List.takeWhile_cons_of_pos (by simp [hc])]
      split <;> rfl

/-- Where the first character that satisfies `p` begins, or where the text ends. -/
def findEnd (p : Char → Bool) (t : Text) : Nat := (find? p t).getD t.byteLength

theorem findEnd_eq (p : Char → Bool) (t : Text) :
    findEnd p t = byteLength (t.takeWhile fun c => !p c) := by
  unfold findEnd
  rw [find?_eq]
  split
  · rename_i h
    conv_lhs => rw [Option.getD_none, ← List.takeWhile_append_dropWhile (p := fun c => !p c)
      (l := t), h, List.append_nil]
  · rfl

end Text

namespace Checked

/-- What an access asks in vain. -/
inductive Fault where
  /-- The ends of a slice are out of order, outside the text or inside a character. -/
  | slice (start limit : Nat)
  /-- An index is not below the length. -/
  | index (i : Nat)
  /-- A depth is to be lowered below zero. -/
  | depth
  deriving DecidableEq, Repr

/-! ### Slices -/

/-- The text between two byte offsets. -/
def slice (t : Text) (start limit : Nat) : Except Fault Text :=
  if start ≤ limit ∧ limit ≤ t.byteLength ∧ t.IsCut start ∧ t.IsCut limit then
    .ok ((t.dropBytes start).takeBytes (limit - start))
  else .error (.slice start limit)

/-- The text from a byte offset on. -/
def sliceFrom (t : Text) (start : Nat) : Except Fault Text := slice t start t.byteLength

/-- The text before a byte offset. -/
def sliceTo (t : Text) (limit : Nat) : Except Fault Text := slice t 0 limit

theorem slice_append (a b c : Text) :
    slice (a ++ b ++ c) a.byteLength (a ++ b).byteLength = .ok b := by
  unfold slice
  rw [if_pos, List.append_assoc, Text.dropBytes_append, Text.byteLength_append,
    Nat.add_sub_cancel_left, Text.takeBytes_append]
  refine ⟨by simp, by simp, ?_, Text.isCut_append _ _⟩
  rw [List.append_assoc]
  exact Text.isCut_append _ _

theorem sliceFrom_append (a b : Text) : sliceFrom (a ++ b) a.byteLength = .ok b := by
  have := slice_append a b []
  rwa [List.append_nil] at this

theorem sliceTo_append (a b : Text) : sliceTo (a ++ b) a.byteLength = .ok a := slice_append [] a b

/-- **What a slice from an offset on gives** stands behind a beginning of that many bytes. -/
theorem exists_append_of_sliceFrom {t r : Text} {n : Nat} (h : sliceFrom t n = .ok r) :
    ∃ a, t = a ++ r ∧ n = a.byteLength := by
  have hcut : t.IsCut n := by
    unfold sliceFrom slice at h
    split at h
    · rename_i hs
      exact hs.2.2.1
    · cases h
  obtain ⟨a, b, rfl, rfl⟩ := hcut
  rw [sliceFrom_append, Except.ok.injEq] at h
  exact ⟨a, by rw [h], rfl⟩

-- a slice through the two bytes of a character, and one whose ends are out of order
example : sliceFrom ['é', 'a'] 1 = .error (.slice 1 3) := by decide
example : slice ['a', 'b'] 2 1 = .error (.slice 2 1) := by decide

/-! ### Indices and depths -/

/-- The element at an index. -/
def get {α : Type} (xs : List α) (i : Nat) : Except Fault α :=
  match xs[i]? with
  | some x => .ok x
  | none => .error (.index i)

theorem get_eq_ok {α : Type} {xs : List α} {i : Nat} {x : α} (h : xs[i]? = some x) :
    get xs i = .ok x := by
  unfold get
  rw [h]

/-- One less than a depth. -/
def lower : Nat → Except Fault Nat
  | 0 => .error .depth
  | depth + 1 => .ok depth

@[simp] theorem lower_succ (depth : Nat) : lower (depth + 1) = .ok depth := rfl

/-! ### One access after the other -/

section Sequence

variable {α β : Type}

@[simp] theorem ok_bind (a : α) (f : α → Except Fault β) :
    ((.ok a : Except Fault α) >>= f) = f a := rfl

theorem exists_of_bind_eq_ok {x : Except Fault α} {f : α → Except Fault β} {b : β}
    (h : x >>= f = .ok b) : ∃ a, x = .ok a ∧ f a = .ok b := by
  cases x with
  | error e => cases h
  | ok a => exact ⟨a, rfl, h⟩

/-- Checks that find no fault in the elements of a list find none in the list. -/
theorem mapM_eq_ok {f : α → Except Fault β} {g : α → β} :
    ∀ {xs : List α}, (∀ x ∈ xs, f x = .ok (g x)) → xs.mapM f = .ok (xs.map g)
  | [], _ => rfl
  | x :: xs, h => by
    rw [List.mapM_cons, h x (by simp), ok_bind,
      mapM_eq_ok fun y hy => h y (List.mem_cons_of_mem x hy), ok_bind]
    rfl

/-- A checked step that finds no fault on the way finds none in the run. -/
theorem foldlM_eq_ok {f : β → α → Except Fault β} {g : β → α → β} :
    ∀ {xs : List α} (b : β), (∀ b, ∀ x ∈ xs, f b x = .ok (g b x)) →
      xs.foldlM f b = .ok (xs.foldl g b)
  | [], _, _ => rfl
  | x :: xs, b, h => by
    rw [List.foldlM_cons, h b x (by simp), ok_bind, List.foldl_cons,
      foldlM_eq_ok _ fun c y hy => h c y (List.mem_cons_of_mem x hy)]

end Sequence

end Checked

end DesignAtlas
