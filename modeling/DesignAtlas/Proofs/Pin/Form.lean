import DesignAtlas.Proofs.Outline.Pins
import DesignAtlas.Proofs.Pin.Declaration
import DesignAtlas.Proofs.Pin.Items

/-! # Printed pin declarations

A pin form is a declaration without the freedom of layout, except in its ranges. It is printed as its
parts with a space between them and a comma behind the name. Every part is sealed, so the printed
form is scanned part by part (`PinForm.scanFrom_print`) and read as the declaration that it states
(`PinForm.ofTokens?_run`). -/

namespace DesignAtlas

/-! ### Forms -/

/-- The word of a direction. -/
def Direction.label : Direction → Word
  | .input => ⟨"input".toList, by decide⟩
  | .output => ⟨"output".toList, by decide⟩
  | .inout => ⟨"inout".toList, by decide⟩

/-- Whether numbers have a sign. -/
inductive Signing where
  | signed
  | unsigned
  deriving DecidableEq, Repr

/-- The word of a signing. -/
def Signing.label : Signing → Word
  | .signed => ⟨"signed".toList, by decide⟩
  | .unsigned => ⟨"unsigned".toList, by decide⟩

/-- A pin declaration by its parts. -/
structure PinForm where
  direction : Option Direction
  netType : Option NetType
  signing : Option Signing
  ranges : List Range
  label : Word
  /-- No range holds a comma or a directive. -/
  joined : ∀ r ∈ ranges, ∀ t ∈ Token.scan r.text, PinItem.joins t.payload = true
  identifier : label.IsIdentifier
  noNetType : label.name ∉ netTypes
  noSigning : isSigning label.name = false

namespace PinForm

/-- An optional word and a space behind it. -/
def printWord (w : Option Word) : Text := w.elim [] fun w => w.text ++ [' ']

/-- Ranges with a space behind each. -/
def printRanges (rs : List Range) : Text := rs.flatMap fun r => r.text ++ [' ']

/-- The form on its line: its parts with a space between them, a comma behind the name. -/
def print (d : PinForm) : Text :=
  printWord (d.direction.map Direction.label) ++
    (printWord (d.netType.map NetType.toWord) ++
      (printWord (d.signing.map Signing.label) ++
        (printRanges d.ranges ++ (d.label.text ++ ",\n".toList))))

/-- The words of the type. -/
def typeWords (d : PinForm) : List String :=
  (d.netType.map fun t => t.name).toList ++ (d.signing.map fun s => s.label.name).toList

/-- The ranges without their blanks; none when there are no ranges. -/
def size (d : PinForm) : Option String :=
  if d.ranges.isEmpty then none
  else some (String.ofList (d.ranges.flatMap fun r => Text.squeeze r.text))

/-- The declaration that the form states. -/
def decl (d : PinForm) : PinDecl := ⟨d.direction, typeText d.typeWords, d.size, d.label.name⟩

/-! ### The parts of a form -/

/-- The token of an optional word at `p`. -/
def wordToken (p : Position) (w : Option Word) : Option Token := w.map fun w => (w.glyph []).token p

theorem sealed_printWord (w : Option Word) : (printWord w).Sealed := by
  cases w with
  | none => exact Text.sealed_blank blank_nil
  | some w => exact w.sealed isBlank_space

theorem scanFrom_printWord (w : Option Word) (p : Position) :
    Token.scanFrom p (printWord w) = (wordToken p w).toList := by
  cases w with
  | none => exact Glyph.scanFrom_blank blank_nil
  | some w => exact w.scanFrom_eq isBlank_space p

theorem joins_wordToken {p : Position} {w : Option Word} :
    ∀ t ∈ (wordToken p w).toList, PinItem.joins t.payload = true := by
  intro t ht
  cases w with
  | none => cases ht
  | some w =>
    rw [List.mem_singleton.mp ht]
    show PinItem.joins (Payload.ofWord w.name) = true
    unfold Payload.ofWord
    split <;> rfl

/-- The tokens of ranges at `p`, range by range. -/
def rangeTokens (p : Position) : List Range → List (List Token)
  | [] => []
  | r :: rs => Token.scanFrom p r.text :: rangeTokens (p.advance (r.text ++ [' '])) rs

theorem sealed_printRanges (rs : List Range) : (printRanges rs).Sealed := by
  unfold printRanges
  rw [List.flatMap_def]
  refine Text.sealed_flatten fun t ht => ?_
  obtain ⟨r, -, rfl⟩ := List.mem_map.mp ht
  exact r.sealed.append (Text.sealed_blank blank_space)

theorem scanFrom_printRanges : ∀ (rs : List Range) (p : Position),
    Token.scanFrom p (printRanges rs) = (rangeTokens p rs).flatten
  | [], _ => Glyph.scanFrom_blank blank_nil
  | r :: rs, p => by
    have hsealed : (r.text ++ [' ']).Sealed := r.sealed.append (Text.sealed_blank blank_space)
    have hrange : Token.scanFrom p (r.text ++ [' ']) = Token.scanFrom p r.text := by
      rw [r.sealed, Glyph.scanFrom_blank blank_space, List.append_nil]
    have hcons : printRanges (r :: rs) = r.text ++ [' '] ++ printRanges rs := by simp [printRanges]
    rw [hcons, hsealed, hrange, scanFrom_printRanges rs]
    rfl

theorem isRange_of_mem_rangeTokens : ∀ (rs : List Range) (p : Position),
    ∀ ts ∈ rangeTokens p rs, Token.IsRange ts
  | [], _ => fun _ h => nomatch h
  | r :: rs, p =>
    List.forall_mem_cons.mpr ⟨r.isRange_scanFrom p, isRange_of_mem_rangeTokens rs _⟩

theorem joins_rangeTokens : ∀ {rs : List Range},
    (∀ r ∈ rs, ∀ t ∈ Token.scan r.text, PinItem.joins t.payload = true) →
      ∀ (p : Position), ∀ t ∈ (rangeTokens p rs).flatten, PinItem.joins t.payload = true
  | [], _, _, _, ht => by cases ht
  | r :: rs, h, p, t, ht => by
    rcases List.mem_append.mp ht with ht | ht
    · rw [Token.scanFrom_eq_relocate] at ht
      obtain ⟨u, hu, rfl⟩ := List.mem_map.mp ht
      exact h r List.mem_cons_self u hu
    · exact joins_rangeTokens (fun s hs => h s (List.mem_cons_of_mem r hs)) _ t ht

theorem squeeze_printRanges (rs : List Range) :
    Text.squeeze (printRanges rs) = rs.flatMap fun r => Text.squeeze r.text := by
  induction rs with
  | nil => rfl
  | cons r rs ih =>
    have hspace : Text.squeeze [' '] = [] := by decide
    unfold printRanges Text.squeeze at ih hspace ⊢
    rw [List.flatMap_cons, List.flatMap_cons, List.filter_append, List.filter_append, ih, hspace,
      List.append_nil]

theorem readAll_label (w : Word) (u : Text) :
    Glyph.ReadAll [w.glyph [], Symbol.comma.glyph []] (['\n'] ++ u) :=
  ⟨w.reads blank_nil (by simp [Symbol.char]; decide), Symbol.comma.reads blank_nil _, trivial⟩

theorem sealed_label (w : Word) : Text.Sealed (w.text ++ ",\n".toList) := by
  have := Text.sealed_of_readAll blank_newline (readAll_label w)
  simpa [Symbol.char] using this

theorem scanFrom_label (w : Word) (p : Position) :
    Token.scanFrom p (w.text ++ ",\n".toList) =
      [(w.glyph []).token p, (Symbol.comma.glyph []).token (p.advance w.text)] := by
  have := Glyph.scanFrom_spell_blank (readAll_label w []) blank_newline p
  simpa [Symbol.char] using this

theorem sealed_print (d : PinForm) : d.print.Sealed :=
  (sealed_printWord _).append ((sealed_printWord _).append ((sealed_printWord _).append
    ((sealed_printRanges _).append (sealed_label _))))

/-! ### A form as a declaration -/

section Tokens

variable (d : PinForm) (p : Position)

/-- The token of the direction of a form that is printed at `p`. -/
def directionToken : Option Token := wordToken p (d.direction.map Direction.label)

/-- Where the type is printed. -/
def typePosition : Position := p.advance (printWord (d.direction.map Direction.label))

/-- The token of the net type. -/
def typeToken : Option Token := wordToken (d.typePosition p) (d.netType.map NetType.toWord)

/-- Where the signing is printed. -/
def signingPosition : Position :=
  (d.typePosition p).advance (printWord (d.netType.map NetType.toWord))

/-- The token of the signing. -/
def signingToken : Option Token := wordToken (d.signingPosition p) (d.signing.map Signing.label)

/-- Where the ranges are printed. -/
def rangePosition : Position :=
  (d.signingPosition p).advance (printWord (d.signing.map Signing.label))

/-- Where the name is printed. -/
def labelPosition : Position := (d.rangePosition p).advance (printRanges d.ranges)

/-- The token of the name. -/
def labelToken : Token := (d.label.glyph []).token (d.labelPosition p)

/-- The tokens of the form but for its comma. -/
def run : List Token :=
  (d.directionToken p).toList ++ ((d.typeToken p).toList ++ ((d.signingToken p).toList ++
    ((rangeTokens (d.rangePosition p) d.ranges).flatten ++ [d.labelToken p])))

/-- The comma behind the form. -/
def commaToken : Token :=
  (Symbol.comma.glyph []).token ((d.labelPosition p).advance d.label.text)

/-- **A printed form** is scanned as its parts and a comma. -/
theorem scanFrom_print : Token.scanFrom p d.print = d.run p ++ [d.commaToken p] := by
  rw [print, sealed_printWord, scanFrom_printWord, sealed_printWord, scanFrom_printWord,
    sealed_printWord, scanFrom_printWord, sealed_printRanges, scanFrom_printRanges, scanFrom_label]
  simp [run, directionToken, typeToken, signingToken, labelToken, commaToken, typePosition,
    signingPosition, rangePosition, labelPosition]

theorem joins_run : ∀ t ∈ d.run p, PinItem.joins t.payload = true := by
  intro t ht
  rcases List.mem_append.mp ht with ht | ht
  · exact joins_wordToken t ht
  rcases List.mem_append.mp ht with ht | ht
  · exact joins_wordToken t ht
  rcases List.mem_append.mp ht with ht | ht
  · exact joins_wordToken t ht
  rcases List.mem_append.mp ht with ht | ht
  · exact joins_rangeTokens d.joined _ t ht
  · exact joins_wordToken (w := some d.label) t ht

theorem ofPayload?_directionToken :
    (∀ t ∈ d.directionToken p, (Direction.ofPayload? t.payload).isSome = true) ∧
      ((d.directionToken p).bind fun t => Direction.ofPayload? t.payload) = d.direction := by
  have hword : ∀ dir : Direction,
      Direction.ofPayload? (Payload.ofWord dir.label.name) = some dir := by
    intro dir
    cases dir <;> decide
  unfold directionToken wordToken
  cases d.direction with
  | none => exact ⟨(fun _ ht => nomatch ht), rfl⟩
  | some dir =>
    refine ⟨fun t ht => ?_, hword dir⟩
    cases ht
    show (Direction.ofPayload? (Payload.ofWord dir.label.name)).isSome = true
    rw [hword]
    rfl

theorem identifier?_typeToken :
    (∀ t ∈ d.typeToken p, ∃ w ∈ netTypes, t.identifier? = some w) ∧
      (d.typeToken p).toList.filterMap Token.identifier? =
        (d.netType.map fun t => t.name).toList := by
  unfold typeToken wordToken
  cases d.netType with
  | none => exact ⟨(fun _ ht => nomatch ht), rfl⟩
  | some t =>
    have hname := Word.identifier?_token t.isIdentifier [] (d.typePosition p)
    refine ⟨fun u hu => ?_, by simp [hname]⟩
    cases hu
    exact ⟨t.name, t.listed, hname⟩

theorem identifier?_signingToken :
    PinDecl.IsSigning (d.signingToken p) ∧
      (d.signingToken p).toList.filterMap Token.identifier? =
        (d.signing.map fun s => s.label.name).toList := by
  unfold signingToken wordToken
  cases d.signing with
  | none => exact ⟨(fun _ ht => nomatch ht), rfl⟩
  | some s =>
    have hid : s.label.IsIdentifier := by cases s <;> decide
    have hname := Word.identifier?_token hid [] (d.signingPosition p)
    refine ⟨fun u hu => ?_, by simp [hname]⟩
    cases hu
    exact ⟨s.label.name, hname, by cases s <;> decide⟩

end Tokens

theorem flatten_rangeTokens_eq_nil_iff (p : Position) (rs : List Range) :
    (rangeTokens p rs).flatten = [] ↔ rs = [] := by
  cases rs with
  | nil => simp [rangeTokens]
  | cons r rs =>
    obtain ⟨t, us, hr, -⟩ := PinDecl.exists_of_range (r.isRange_scanFrom p)
    simp [rangeTokens, hr]

/-- The text of the ranges of a printed form. -/
theorem rangeText_rangeTokens (a u : Text) (rs : List Range) :
    Token.rangeText (a ++ printRanges rs ++ u)
        (rangeTokens (Position.start.advance a) rs).flatten =
      if rs.isEmpty then none
      else some (String.ofList (rs.flatMap fun r => Text.squeeze r.text)) := by
  have hempty : (rangeTokens (Position.start.advance a) rs).flatten.isEmpty = rs.isEmpty := by
    rw [Bool.eq_iff_iff, List.isEmpty_iff, List.isEmpty_iff, flatten_rangeTokens_eq_nil_iff]
  unfold Token.rangeText
  rw [hempty, ← scanFrom_printRanges, Token.squeeze_sourceOf_scanFrom, squeeze_printRanges]

/-- **A printed form is read** as the declaration that it states. -/
theorem ofTokens?_run (d : PinForm) (a u : Text) :
    PinDecl.ofTokens? (a ++ d.print ++ u) (d.run (Position.start.advance a)) = some d.decl := by
  let p := Position.start.advance a
  obtain ⟨hdir, hdirection⟩ := d.ofPayload?_directionToken p
  obtain ⟨htype, htypes⟩ := d.identifier?_typeToken p
  obtain ⟨hsigning, hsignings⟩ := d.identifier?_signingToken p
  have hbefore : ∀ ts, PinDecl.IsTypeBefore (d.typeToken p) ts := by
    intro ts t ht
    obtain ⟨w, hw, hid⟩ := htype t ht
    exact ⟨w, hid, by simp [PinDecl.isType, hw]⟩
  have hsize : Token.rangeText (a ++ d.print ++ u)
      (rangeTokens (d.rangePosition p) d.ranges).flatten = d.size := by
    let front : Text := a ++ (printWord (d.direction.map Direction.label) ++
      (printWord (d.netType.map NetType.toWord) ++ printWord (d.signing.map Signing.label)))
    have hposition : d.rangePosition p = Position.start.advance front := by
      simp [rangePosition, signingPosition, typePosition, front, p, Position.advance_append]
    have htext : a ++ d.print ++ u =
        front ++ printRanges d.ranges ++ (d.label.text ++ ",\n".toList ++ u) := by
      simp [print, front]
    rw [hposition, htext, rangeText_rangeTokens]
    rfl
  have hread := PinDecl.ofTokens?_of_parts (a ++ d.print ++ u) hdir (hbefore _) hsigning
    (isRange_of_mem_rangeTokens d.ranges (d.rangePosition p))
    (Word.identifier?_token d.identifier [] (d.labelPosition p)) d.noNetType d.noSigning
  rw [hdirection, List.filterMap_append, htypes, hsignings, hsize] at hread
  exact hread

end PinForm

end DesignAtlas
