import DesignAtlas.Instance
import DesignAtlas.Proofs.Checked.Bracket
import DesignAtlas.Proofs.Checked.Scan
import DesignAtlas.Proofs.Statement.Plain

/-! # Statements and instances through checked accesses

A line is searched for directives by byte offset: a backtick takes one byte, so the search goes on
between two characters (`cutFrom_eq`). The word that ends a task or function is cut off by its
length, which asks that it stands at the very front: a statement is trimmed, and what is left behind
such a word is trimmed again (`Flush`). The statements of a body (`statements_eq`) and the instance
that a statement looks like (`instanceOf_eq`) are those found without checks. -/

namespace DesignAtlas

/-! ### The first backtick of a text -/

namespace Text

/-- A text has no backtick, or is found to have one behind a beginning without. -/
theorem find?_backtick (t : Text) :
    ('\x60' ∉ t ∧ find? (· == '\x60') t = none) ∨
      ∃ a b, t = a ++ '\x60' :: b ∧ '\x60' ∉ a ∧ find? (· == '\x60') t = some a.byteLength := by
  have hsplit := List.takeWhile_append_dropWhile (p := fun c => !(c == '\x60')) (l := t)
  have hfree : '\x60' ∉ t.takeWhile fun c => !(c == '\x60') :=
    fun hc => by simpa using List.mem_takeWhile_imp hc
  rw [find?_eq]
  cases hd : t.dropWhile fun c => !(c == '\x60') with
  | nil =>
    rw [hd, List.append_nil] at hsplit
    exact Or.inl ⟨hsplit ▸ hfree, if_pos rfl⟩
  | cons c r =>
    obtain rfl : c = '\x60' := by
      have := List.head?_dropWhile_not (fun c => !(c == '\x60')) t
      rw [hd] at this
      simpa using this
    exact Or.inr ⟨_, r, by rw [← hd, hsplit], hfree, if_neg (List.cons_ne_nil _ _)⟩

end Text

namespace Checked

/-! ### Directives of a line -/

/-- The directive written behind a backtick, if it is one. -/
def directiveOf (t : Text) : Except Fault (Option Directive) := do
  let length := Text.findEnd (fun c => !isDirectiveChar c) t
  let name := String.ofList (← sliceTo t length)
  match Directive.extent? name with
  | none => return none
  | some extent =>
    let after := Text.trim (← sliceFrom t length)
    match extent with
    | .bare => return some ⟨name, ""⟩
    | .word => return some ⟨name, String.ofList ((Text.words after).head?.getD [])⟩
    | .line => return some ⟨name, String.ofList after⟩

/-- Cuts a line before its first directive from the byte offset `i` on. -/
def cutFrom (line : Text) (i : Nat) : Except Fault (Text × Option Directive) :=
  match _h : sliceFrom line i with
  | .error e => .error e
  | .ok rest =>
    match Text.find? (· == '\x60') rest with
    | none => .ok (line, none)
    | some n => do
      match ← directiveOf (← sliceFrom line (i + n + 1)) with
      | some d => return (← sliceTo line (i + n), some d)
      | none => cutFrom line (i + n + 1)
  termination_by line.byteLength + 1 - i
  decreasing_by
    obtain ⟨a, hline, hi⟩ := exists_append_of_sliceFrom _h
    have : i ≤ line.byteLength := by rw [hline, hi, Text.byteLength_append]; omega
    omega

/-- The pieces of a body. -/
def pieces (body : Text) : Except Fault (List Piece) := do
  let lines ← (Text.lines body).mapM fun line => do
    let (code, directive) ← cutFrom line 0
    return code.map Piece.char ++ .char '\n' :: (directive.map Piece.directive).toList
  return lines.flatten

section FindEnd

variable (p : Char → Bool) (t : Text)

/-- A text is cut without a fault before the first character that satisfies `p`. -/
theorem sliceTo_findEnd : sliceTo t (Text.findEnd p t) = .ok (t.takeWhile fun c => !p c) := by
  have := sliceTo_append (t.takeWhile fun c => !p c) (t.dropWhile fun c => !p c)
  rwa [List.takeWhile_append_dropWhile, ← Text.findEnd_eq] at this

theorem sliceFrom_findEnd : sliceFrom t (Text.findEnd p t) = .ok (t.dropWhile fun c => !p c) := by
  have := sliceFrom_append (t.takeWhile fun c => !p c) (t.dropWhile fun c => !p c)
  rwa [List.takeWhile_append_dropWhile, ← Text.findEnd_eq] at this

end FindEnd

theorem directiveOf_eq (t : Text) : directiveOf t = .ok (Directive.ofText? t) := by
  unfold directiveOf Directive.ofText?
  simp only [sliceTo_findEnd, sliceFrom_findEnd, ok_bind, Bool.not_not]
  rcases Directive.extent? (String.ofList (t.takeWhile isDirectiveChar)) with _ | (_ | _ | _)
  all_goals rfl

theorem cut_append {a : Text} (h : '\x60' ∉ a) (t : Text) :
    Directive.cut (a ++ t) = (a ++ (Directive.cut t).1, (Directive.cut t).2) := by
  induction a with
  | nil => rfl
  | cons c a ih =>
    rw [List.mem_cons, not_or] at h
    rw [List.cons_append, Directive.cut, if_neg (Ne.symm h.1), ih h.2]
    rfl

theorem cutFrom_eq (a t : Text) :
    cutFrom (a ++ t) a.byteLength = .ok (a ++ (Directive.cut t).1, (Directive.cut t).2) := by
  rw [cutFrom]
  split <;> rename_i hs <;> rw [sliceFrom_append] at hs <;> cases hs
  rcases Text.find?_backtick t with ⟨hfree, hfind⟩ | ⟨pre, u, rfl, hfree, hfind⟩
  · rw [hfind, Directive.cut_of_plain hfree]
  · -- the backtick takes one byte
    have hat : a.byteLength + pre.byteLength = (a ++ pre).byteLength := by simp
    have hbehind : (a ++ pre).byteLength + 1 = (a ++ pre ++ ['\x60']).byteLength := by
      rw [Text.byteLength_append (a ++ pre)]
      rfl
    have hline : a ++ (pre ++ '\x60' :: u) = a ++ pre ++ ['\x60'] ++ u := by simp
    simp only [hfind]
    rw [hat, hbehind, hline, sliceFrom_append, ok_bind, directiveOf_eq, ok_bind, cut_append hfree,
      Directive.cut, if_pos rfl]
    cases hd : Directive.ofText? u with
    | some d =>
      simp only
      rw [List.append_assoc (a ++ pre), sliceTo_append]
      simp [pure, Except.pure]
    | none =>
      simp only
      rw [cutFrom_eq]
      simp
  termination_by t.length

theorem pieces_eq (body : Text) : pieces body = .ok (Piece.ofBody body) := by
  unfold pieces Piece.ofBody
  rw [mapM_eq_ok (g := Piece.ofLine), ok_bind, List.flatMap_def]
  · rfl
  · intro line _
    have := cutFrom_eq [] line
    rw [List.nil_append, Text.byteLength_nil] at this
    rw [this]
    rfl

/-! ### Tasks and functions -/

/-- The text behind an optional colon and label. -/
def dropLabel : Text → Except Fault Text
  | ':' :: t => do
    let label := Text.trimStart t
    return Text.trimStart (← sliceFrom label (Text.findEnd (fun c => !isWordChar c) label))
  | t => return t

/-- The text behind a word that ends a task or function, and behind its label. -/
def afterEnd (t : Text) : Except Fault (Option Text) :=
  match (Text.words t).head? with
  | none => .ok none
  | some first =>
    if String.ofList first = "endtask" ∨ String.ofList first = "endfunction" then do
      let behind ← sliceFrom t (Text.byteLength first)
      return some (← dropLabel (Text.trimStart behind))
    else .ok none

theorem dropLabel_eq (t : Text) : dropLabel t = .ok (Statement.dropLabel t) := by
  unfold dropLabel
  split
  · simp only [sliceFrom_findEnd, ok_bind, Bool.not_not]
    rfl
  · rename_i hcolon
    rw [Statement.dropLabel]
    · rfl
    · exact hcolon

theorem length_afterEnd_lt {t r : Text} (h : afterEnd t = .ok (some r)) : r.length < t.length := by
  unfold afterEnd at h
  split at h
  · cases h
  rename_i first _
  split_ifs at h with hw
  case neg => cases h
  have hne : first ≠ [] := by
    rintro rfl
    simp at hw
  obtain ⟨behind, hs, h⟩ := exists_of_bind_eq_ok h
  rw [dropLabel_eq] at h
  cases h
  obtain ⟨a, rfl, ha⟩ := exists_append_of_sliceFrom hs
  have ha' : a ≠ [] := by
    rintro rfl
    exact absurd ha (Nat.ne_of_gt (Text.byteLength_pos hne))
  have h1 := Statement.length_dropLabel_le (Text.trimStart behind)
  have h2 := Text.length_trimStart_le behind
  have h3 := List.length_pos_iff.mpr ha'
  rw [List.length_append]
  omega

/-- Cuts off the words at the front that end tasks or functions. -/
def dropEnds (t : Text) : Except Fault (Nat × Text) :=
  match _h : afterEnd t with
  | .error e => .error e
  | .ok none => .ok (0, t)
  | .ok (some r) => do
    let (n, u) ← dropEnds r
    return (n + 1, u)
  termination_by t.length
  decreasing_by exact length_afterEnd_lt ‹_›

/-- The statements of some fragments, of which the first stands in `depth` tasks or functions. -/
def ofFragments (depth : Nat) : List Fragment → Except Fault (List Statement)
  | [] => .ok []
  | f :: fs => do
    let (ended, text) ← dropEnds (Text.trim f.text)
    let inner := depth - ended
    let opens := Statement.opensSubprogram text
    return ⟨text, f.conditionals, opens || decide (0 < inner)⟩ ::
      (← ofFragments (if opens then inner + 1 else inner) fs)

theorem afterEnd_eq {t : Text} (h : t.Flush) : afterEnd t = .ok (Statement.afterEnd? t) := by
  by_cases hne : t = []
  · subst hne
    rfl
  have hcut := sliceFrom_append (t.takeWhile fun c => !isBlank c) (t.dropWhile fun c => !isBlank c)
  rw [List.takeWhile_append_dropWhile] at hcut
  unfold afterEnd Statement.afterEnd? Statement.firstWord
  simp only [Text.head?_words h hne, hcut, ok_bind, dropLabel_eq]
  split_ifs <;> rfl

theorem flush_afterEnd? {t r : Text} (h : Statement.afterEnd? t = some r) : r.Flush := by
  unfold Statement.afterEnd? at h
  split_ifs at h
  cases h
  unfold Statement.dropLabel
  split
  · exact Text.flush_trimStart _
  · exact Text.flush_trimStart _

theorem dropEnds_eq {t : Text} (h : t.Flush) : dropEnds t = .ok (Statement.dropEnds t) := by
  have hc := afterEnd_eq h
  rw [dropEnds]
  rcases hr : Statement.afterEnd? t with _ | r <;> rw [hr] at hc
  · rw [Statement.dropEnds_of_none hr]
    split <;> simp_all
  · rw [Statement.dropEnds_of_some hr]
    split <;> rename_i h' <;> rw [hc] at h' <;> cases h'
    rw [dropEnds_eq (flush_afterEnd? hr)]
    rfl
  termination_by t.length
  decreasing_by exact Statement.length_afterEnd?_lt hr

/-- **The statements of a body are read without a fault.** -/
theorem ofFragments_eq : ∀ (fs : List Fragment) (depth : Nat),
    ofFragments depth fs = .ok (Statement.ofFragments depth fs)
  | [], _ => rfl
  | f :: fs, depth => by
    unfold ofFragments Statement.ofFragments
    simp only [dropEnds_eq (Text.flush_trim f.text), ok_bind, ofFragments_eq fs]
    rfl

-- blanks in front would put the cut behind the word inside one of them
example : afterEnd ['\u3000', '\u3000', '\u3000', 'e', 'n', 'd', 't', 'a', 's', 'k'] =
    .error (.slice 7 16) := by decide +kernel

/-! ### Instances -/

/-- The identifier at the front of a word. -/
def calleeOf : Text → Except Fault (Option Text)
  | [] => return none
  | c :: t =>
    if c = '\x5c' then return if t.isEmpty then none else some t
    else if c.isAlpha || c == '_' then do
      return some (← sliceTo (c :: t) (Text.findEnd (fun c => !isWordChar c) (c :: t)))
    else return none

/-- The identifier behind an optional parameter override. -/
def nameOf : List Token → Except Fault (Option String)
  | ⟨.symbol .hash, _⟩ :: ⟨.symbol .openParen, _⟩ :: ts => do
    return (← closeParen 1 ts).bind fun e => e.rest.head?.bind Token.identifier?
  | ⟨.symbol .hash, _⟩ :: _ => return none
  | ts => return ts.head?.bind Token.identifier?

/-- The instantiation that a statement looks like. -/
def instanceOf (o : Options) (s : Statement) : Except Fault (Option Instance) := do
  let words := Text.words s.text
  if !s.text.contains '(' || words.length ≤ 2 then return none
  else
    let first ← get words 0
    let second ← get words 1
    if o.isReserved (String.ofList first) || Instance.isAssignment second then return none
    else
      match ← calleeOf first with
      | none => return none
      | some callee =>
        let name ← nameOf (← scan s.text).tail
        return some ⟨String.ofList callee, name, String.ofList s.text, s.conditionals⟩

theorem calleeOf_eq (w : Text) : calleeOf w = .ok (Instance.calleeOf? w) := by
  cases w with
  | nil => rfl
  | cons c t =>
    rw [calleeOf, Instance.calleeOf?]
    split_ifs with he hn ha
    · rfl
    · rfl
    · have hc : isWordChar c = true := by
        simp only [isWordChar, Char.isAlphanum, Bool.or_eq_true] at ha ⊢
        tauto
      rw [sliceTo_findEnd]
      simp only [Bool.not_not, List.takeWhile_cons_of_pos hc]
      rfl
    · rfl

theorem nameOf_eq (ts : List Token) : nameOf ts = .ok (Instance.nameOf? ts) := by
  unfold nameOf
  split
  · rw [closeParen_eq]
    rfl
  · rename_i hopen
    rw [Instance.nameOf?]
    · rfl
    · exact hopen
  · rename_i hopen hhash
    rw [Instance.nameOf?]
    · rfl
    · exact hopen
    · exact hhash

/-- **A statement is taken for an instance without a fault.** -/
theorem instanceOf_eq (o : Options) (s : Statement) :
    instanceOf o s = .ok (Instance.ofStatement? o s) := by
  unfold instanceOf Instance.ofStatement?
  simp only [calleeOf_eq, scan_eq, nameOf_eq, ok_bind]
  match hw : Text.words s.text with
  | [] => simp [pure, Except.pure]
  | [_] => simp [pure, Except.pure]
  | [_, _] => simp [pure, Except.pure]
  | w :: v :: x :: ws =>
    have hmany : ¬ (w :: v :: x :: ws).length ≤ 2 := by simp
    simp only [get_eq_ok (show (w :: v :: x :: ws)[0]? = some w from rfl),
      get_eq_ok (show (w :: v :: x :: ws)[1]? = some v from rfl), ok_bind, hmany, decide_false,
      Bool.or_false]
    cases s.text.contains '(' with
    | false => rfl
    | true =>
      simp only [Bool.not_true, Bool.false_or, Bool.false_eq_true, if_false]
      split_ifs
      · rfl
      · cases Instance.calleeOf? w <;> rfl

end Checked

end DesignAtlas
