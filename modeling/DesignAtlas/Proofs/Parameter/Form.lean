import DesignAtlas.Proofs.Parameter.Declarator
import DesignAtlas.Proofs.Parameter.Level
import DesignAtlas.Proofs.Pin.Form

/-! # Printed parameter declarations

A group declares parameters behind one keyword: the first entry is printed with the keyword, the type,
the signing and the ranges in front of it, the others by themselves. Everything before the value of an
entry is sealed and whole, and so is the value with a newline behind it; so an entry is one segment
(`IsEntry`) that is read as the parameter it states, whether a newline stands behind it or not
(`Entry.isEntry`, `Group.isEntry_first`). -/

namespace DesignAtlas.Parameter

open PinForm (printWord printRanges wordToken rangeTokens)

variable {o : Options}

/-! ### Forms -/

/-- The text of a value, with any layout. -/
structure Expression where
  text : Text
  nonempty : Token.scan text ≠ []
  level : Level 0 (Token.scan text)
  noKeyword : ∀ t ∈ Token.scan text,
    t.payload ≠ .keyword .parameter ∧ t.payload ≠ .keyword .localparam
  /-- Every string literal has its end. -/
  terminated : text.Terminated

/-- A name with its value. -/
structure Entry where
  label : Word
  value : Expression
  identifier : label.IsIdentifier
  noSigning : isSigning label.name = false

/-- Parameters that are declared behind one keyword. -/
structure Group (o : Options) where
  keyword : Keyword
  type : Option Word
  signing : Option Signing
  ranges : List Range
  first : Entry
  others : List Entry
  announces : keyword = .parameter ∨ keyword = .localparam ∧ o.captureLocalparams = true
  typeWord : ∀ w ∈ type, w.IsIdentifier ∧ isSigning w.name = false
  enclosed : ∀ r ∈ ranges, Enclosed (Token.scan r.text)

namespace Entry

/-- The name and the equals sign, with a space behind each. -/
def front (e : Entry) : Text := e.label.text ++ " = ".toList

def print (e : Entry) : Text := e.front ++ e.value.text

/-- The parameter that the entry states under a size or type. -/
def parameter (shape : Option String) (e : Entry) : Parameter :=
  ⟨e.label.name, shape, String.ofList (Text.collapse e.value.text)⟩

end Entry

namespace Group

/-- All that stands before the first name. -/
def front (g : Group o) : Text :=
  g.keyword.word.toList ++ [' '] ++ (printWord g.type ++
    (printWord (g.signing.map Signing.label) ++ printRanges g.ranges))

/-- The printed entries. -/
def print (g : Group o) : List Text := (g.front ++ g.first.print) :: g.others.map Entry.print

/-- The ranges without their blanks or, when there are none, the words of the type and the signing. -/
def shape (g : Group o) : Option String :=
  if g.ranges.isEmpty then
    typeText ((g.type.map Word.name).toList ++ (g.signing.map fun s => s.label.name).toList)
  else some (String.ofList (g.ranges.flatMap fun r => Text.squeeze r.text))

/-- The parameters that the group declares. -/
def parameters (g : Group o) : List Parameter := (g.first :: g.others).map (Entry.parameter g.shape)

end Group

/-- The entries of all groups with a comma on a line of its own between them. -/
def printGroups (gs : List (Group o)) : Text :=
  List.intercalate "\n,\n".toList (gs.flatMap Group.print)

/-! ### Texts before a value -/

/-- The text is sealed and whole. -/
structure IsFront (t : Text) : Prop where
  sealing : t.Sealed
  whole : Whole (Token.scan t)

namespace IsFront

variable {t u : Text}

theorem scan_append (h : IsFront t) (u : Text) :
    Token.scan (t ++ u) = Token.scan t ++ Token.scanFrom (Position.start.advance t) u :=
  h.sealing Position.start u

theorem whole_scanFrom (h : Whole (Token.scan t)) (p : Position) : Whole (Token.scanFrom p t) :=
  h.congr (Token.map_skeleton_scanFrom p t)

theorem append (ht : IsFront t) (hu : IsFront u) : IsFront (t ++ u) := by
  refine ⟨ht.sealing.append hu.sealing, ?_⟩
  rw [ht.scan_append]
  exact ht.whole.append (whole_scanFrom hu.whole _)

end IsFront

theorem isFront_nil : IsFront [] :=
  ⟨Text.sealed_blank blank_nil, by
    rw [Token.scan, Glyph.scanFrom_blank blank_nil]
    exact whole_nil⟩

theorem flat_word (w : Word) (p : Position) : flat ((w.glyph []).token p).payload = true := by
  show flat (Payload.ofWord w.name) = true
  unfold Payload.ofWord
  split <;> rfl

theorem isFront_printWord (w : Option Word) : IsFront (printWord w) := by
  refine ⟨PinForm.sealed_printWord w, ?_⟩
  rw [Token.scan, PinForm.scanFrom_printWord]
  refine whole_of_flat fun t ht => ?_
  cases w with
  | none => cases ht
  | some w =>
    rw [List.mem_singleton.mp ht]
    exact flat_word w _

theorem isFront_printRanges : ∀ {rs : List Range}, (∀ r ∈ rs, Enclosed (Token.scan r.text)) →
    IsFront (printRanges rs)
  | [], _ => isFront_nil
  | r :: rs, h => by
    have hcons : printRanges (r :: rs) = r.text ++ ([' '] ++ printRanges rs) := by
      simp [printRanges]
    have hrange : IsFront r.text :=
      ⟨r.sealed, ((h r List.mem_cons_self).level r.isRange).whole⟩
    have hspace : IsFront [' '] := ⟨Text.sealed_blank blank_space, by
      rw [Token.scan, Glyph.scanFrom_blank blank_space]
      exact whole_nil⟩
    rw [hcons]
    exact hrange.append (hspace.append
      (isFront_printRanges fun s hs => h s (List.mem_cons_of_mem r hs)))

theorem readAll_keyword (k : Keyword) (u : Text) : Glyph.ReadAll [k.glyph []] ([' '] ++ u) :=
  ⟨k.reads blank_nil fun c hc => by cases hc; decide, trivial⟩

theorem scanFrom_keyword (k : Keyword) (p : Position) :
    Token.scanFrom p (k.word.toList ++ [' ']) = [(k.glyph []).token p] := by
  have := Glyph.scanFrom_spell_blank (readAll_keyword k []) blank_space p
  simpa using this

theorem isFront_keyword (k : Keyword) : IsFront (k.word.toList ++ [' ']) := by
  refine ⟨?_, ?_⟩
  · have := Text.sealed_of_readAll blank_space (readAll_keyword k)
    simpa using this
  · rw [Token.scan, scanFrom_keyword]
    exact whole_of_flat (List.forall_mem_singleton.mpr rfl)

namespace Entry

variable (e : Entry)

theorem readAll_front (u : Text) :
    Glyph.ReadAll [e.label.glyph [], Symbol.equals.glyph [' ']] ([' '] ++ u) :=
  ⟨e.label.reads blank_nil fun c hc => by cases hc; decide, Symbol.equals.reads blank_space _, trivial⟩

theorem scanFrom_front (p : Position) : Token.scanFrom p e.front =
    [(e.label.glyph []).token p, (Symbol.equals.glyph [' ']).token (p.advance e.label.text)] := by
  have := Glyph.scanFrom_spell_blank (e.readAll_front []) blank_space p
  simpa [front, Symbol.char] using this

theorem isFront_front : IsFront e.front := by
  refine ⟨?_, ?_⟩
  · have := Text.sealed_of_readAll blank_space e.readAll_front
    simpa [front, Symbol.char] using this
  · rw [Token.scan, scanFrom_front]
    exact whole_of_flat (List.forall_mem_cons.mpr
      ⟨flat_word _ _, List.forall_mem_singleton.mpr rfl⟩)

end Entry

theorem Group.isFront_front (g : Group o) : IsFront g.front :=
  (isFront_keyword g.keyword).append ((isFront_printWord _).append
    ((isFront_printWord _).append (isFront_printRanges g.enclosed)))

/-! ### Values -/

/-- Nothing or a newline, which is what stands behind an entry. -/
def IsEnd (b : Text) : Prop := b = [] ∨ b = ['\n']

theorem IsEnd.blank {b : Text} (h : IsEnd b) : ∀ c ∈ b, isBlank c = true := by
  rcases h with rfl | rfl
  · exact blank_nil
  · exact blank_newline

namespace Expression

variable (v : Expression) {b : Text} (hb : IsEnd b)
include hb

theorem map_skeleton_scanFrom (p : Position) :
    (Token.scanFrom p (v.text ++ b)).map Token.skeleton =
      (Token.scan v.text).map Token.skeleton := by
  rw [Token.map_skeleton_scanFrom]
  rcases hb with rfl | rfl
  · rw [List.append_nil]
  · exact Token.map_skeleton_scan_newline v.terminated

theorem whole_scanFrom (p : Position) : Whole (Token.scanFrom p (v.text ++ b)) :=
  v.level.whole.congr (v.map_skeleton_scanFrom hb p)

theorem scanFrom_ne_nil (p : Position) : Token.scanFrom p (v.text ++ b) ≠ [] := by
  intro hnil
  have := v.map_skeleton_scanFrom hb p
  rw [hnil] at this
  exact v.nonempty (List.map_eq_nil_iff.mp this.symm)

theorem isKeyword_scanFrom (p : Position) :
    ∀ t ∈ Token.scanFrom p (v.text ++ b), isKeyword o t = false := by
  intro t ht
  obtain ⟨u, hu, hskeleton⟩ := List.mem_map.mp
    (v.map_skeleton_scanFrom hb p ▸ List.mem_map_of_mem ht)
  obtain ⟨hparameter, hlocalparam⟩ := v.noKeyword u hu
  rw [isKeyword_of_skeleton hskeleton.symm]
  unfold isKeyword
  split
  · contradiction
  · contradiction
  · rfl

/-- The value of an entry behind `a`. -/
theorem valueOf_scanFrom (a : Text) :
    valueOf (a ++ (v.text ++ b)) (Token.scanFrom (Position.start.advance a) (v.text ++ b)) =
      String.ofList (Text.collapse v.text) := by
  have hcollapse : Text.collapse (v.text ++ b) = Text.collapse v.text := by
    unfold Text.collapse
    rw [Text.words_append_blanks hb.blank]
  have := Token.collapse_sourceOf_scanFrom a (v.text ++ b) []
  rw [List.append_nil] at this
  rw [valueOf, this, hcollapse]

end Expression

/-! ### Entries as segments -/

/-- The text is one segment behind any comma, and declares the parameter behind `inherited`. -/
structure IsEntry (o : Options) (inherited : Option (Option String)) (t : Text) (q : Parameter) :
    Prop where
  sealing : Text.Sealed (t ++ ['\n'])
  whole : ∀ b, IsEnd b → Whole (Token.scan (t ++ b))
  nonempty : ∀ b, IsEnd b → Token.scan (t ++ b) ≠ []
  read : ∀ b, IsEnd b → ofPart? o inherited (t ++ b) = some q

/-- A value behind a front is an entry when it is read as one. -/
theorem isEntry_of_front {inherited : Option (Option String)} {a : Text} {v : Expression}
    {q : Parameter} (ha : IsFront a)
    (hread : ∀ b, IsEnd b → ofPart? o inherited (a ++ (v.text ++ b)) = some q) :
    IsEntry o inherited (a ++ v.text) q := by
  refine ⟨?_, fun b hb => ?_, fun b hb => ?_, fun b hb => ?_⟩
  · rw [List.append_assoc]
    exact ha.sealing.append (Text.sealed_newline v.terminated)
  · rw [List.append_assoc, ha.scan_append]
    exact ha.whole.append (v.whole_scanFrom hb _)
  · rw [List.append_assoc, ha.scan_append]
    exact List.append_ne_nil_of_right_ne_nil _ (v.scanFrom_ne_nil hb _)
  · rw [List.append_assoc]
    exact hread b hb

/-- **An entry by itself** takes over the size or type before it. -/
theorem Entry.isEntry (e : Entry) (shape : Option String) :
    IsEntry o (some shape) e.print (e.parameter shape) := by
  refine isEntry_of_front e.isFront_front fun b hb => ?_
  have hscan := e.isFront_front.scan_append (e.value.text ++ b)
  have hfront : Token.scan e.front = _ := e.scanFrom_front Position.start
  rw [hfront, List.cons_append, List.singleton_append] at hscan
  have hlabel := Word.identifier?_token e.identifier [] Position.start
  have hkeyword : afterKeyword? o (Token.scan (e.front ++ (e.value.text ++ b))) = none := by
    rw [hscan, afterKeyword?_eq_none_iff]
    refine List.forall_mem_cons.mpr ⟨?_, List.forall_mem_cons.mpr
      ⟨rfl, e.value.isKeyword_scanFrom hb _⟩⟩
    unfold isKeyword
    rw [Glyph.token, Word.payload_glyph e.identifier]
  rw [ofPart?, ofSegment?, hkeyword, hscan]
  show binding? _ shape _ = _
  rw [binding?_of_parts _ shape hlabel rfl (e.value.scanFrom_ne_nil hb _),
    e.value.valueOf_scanFrom hb]
  rfl

namespace Group

variable (g : Group o)

/-- The text before the ranges. -/
def head : Text :=
  g.keyword.word.toList ++ [' '] ++ (printWord g.type ++ printWord (g.signing.map Signing.label))

/-- Where the type is printed. -/
def typePosition : Position := Position.start.advance (g.keyword.word.toList ++ [' '])

/-- The token of the type. -/
def typeToken : Option Token := wordToken g.typePosition g.type

/-- The token of the signing. -/
def signingToken : Option Token :=
  wordToken (g.typePosition.advance (printWord g.type)) (g.signing.map Signing.label)

/-- The tokens of the ranges, range by range. -/
def rangeRuns : List (List Token) := rangeTokens (Position.start.advance g.head) g.ranges

theorem scan_front : Token.scan g.front = (g.keyword.glyph []).token Position.start ::
    (g.typeToken.toList ++ (g.signingToken.toList ++ g.rangeRuns.flatten)) := by
  rw [front, Token.scan, (isFront_keyword g.keyword).sealing, scanFrom_keyword,
    PinForm.sealed_printWord, PinForm.scanFrom_printWord, PinForm.sealed_printWord,
    PinForm.scanFrom_printWord, PinForm.scanFrom_printRanges]
  simp [typeToken, signingToken, rangeRuns, typePosition, head, Position.advance_append]

theorem isKeyword_token (p : Position) : isKeyword o ((g.keyword.glyph []).token p) = true := by
  rcases g.announces with h | ⟨h, ho⟩
  · rw [h]
    rfl
  · rw [h]
    exact ho

theorem identifier?_typeToken : IsTypeWord g.typeToken ∧
    g.typeToken.toList.filterMap Token.identifier? = (g.type.map Word.name).toList := by
  unfold typeToken wordToken
  cases htype : g.type with
  | none => exact ⟨(fun _ ht => nomatch ht), rfl⟩
  | some w =>
    obtain ⟨hid, hno⟩ := g.typeWord w htype
    have hname := Word.identifier?_token hid [] g.typePosition
    refine ⟨fun t ht => ?_, by simp [hname]⟩
    cases ht
    exact ⟨w.name, hname, hno⟩

theorem identifier?_signingToken : PinDecl.IsSigning g.signingToken ∧
    g.signingToken.toList.filterMap Token.identifier? =
      (g.signing.map fun s => s.label.name).toList := by
  unfold signingToken wordToken
  cases g.signing with
  | none => exact ⟨(fun _ ht => nomatch ht), rfl⟩
  | some s =>
    have hid : s.label.IsIdentifier := by cases s <;> decide
    have hname := Word.identifier?_token hid [] (g.typePosition.advance (printWord g.type))
    refine ⟨fun t ht => ?_, by simp [hname]⟩
    cases ht
    exact ⟨s.label.name, hname, by cases s <;> decide⟩

/-- The size of the parameters of a group, as it is read. -/
theorem shape_eq (u : Text) : (Token.rangeText (g.front ++ u) g.rangeRuns.flatten).or
    (typeText ((g.typeToken.toList ++ g.signingToken.toList).filterMap Token.identifier?)) =
      g.shape := by
  have htext : g.front ++ u = g.head ++ printRanges g.ranges ++ u := by simp [front, head]
  rw [htext, rangeRuns, PinForm.rangeText_rangeTokens, List.filterMap_append,
    g.identifier?_typeToken.2, g.identifier?_signingToken.2, shape]
  split <;> rfl

/-- **The first entry of a group** is read with what stands in front of it. -/
theorem isEntry_first (inherited : Option (Option String)) :
    IsEntry o inherited (g.front ++ g.first.print) (g.first.parameter g.shape) := by
  have hfront := g.isFront_front.append g.first.isFront_front
  rw [Entry.print, ← List.append_assoc]
  refine isEntry_of_front hfront fun b hb => ?_
  let a : Text := g.front ++ g.first.front
  let value := Token.scanFrom (Position.start.advance a) (g.first.value.text ++ b)
  let p := Position.start.advance g.front
  let equals := (Symbol.equals.glyph [' ']).token (p.advance g.first.label.text)
  have hscan : Token.scan (a ++ (g.first.value.text ++ b)) =
      (g.keyword.glyph []).token Position.start :: (g.typeToken.toList ++
        (g.signingToken.toList ++ (g.rangeRuns.flatten ++
          (g.first.label.glyph []).token p :: equals :: value))) := by
    rw [hfront.scan_append, g.isFront_front.scan_append, g.scan_front, Entry.scanFrom_front]
    simp [p, value, a, equals]
  have hvalue : value ≠ [] := g.first.value.scanFrom_ne_nil hb _
  have hequals : equals.payload = .symbol .equals := rfl
  have hshape := g.shape_eq (g.first.front ++ (g.first.value.text ++ b))
  rw [← List.append_assoc] at hshape
  have hread := declarator?_of_parts (a ++ (g.first.value.text ++ b)) g.identifier?_typeToken.1
    g.identifier?_signingToken.1
    (PinForm.isRange_of_mem_rangeTokens g.ranges (Position.start.advance g.head))
    (Word.identifier?_token g.first.identifier [] p) g.first.noSigning hequals hvalue
  rw [ofPart?, hscan, ofSegment?, afterKeyword?_cons (g.isKeyword_token _)]
  show declarator? _ _ = _
  rw [rangeRuns] at hshape ⊢
  rw [hread, hshape, g.first.value.valueOf_scanFrom hb]
  rfl

end Group

end DesignAtlas.Parameter
