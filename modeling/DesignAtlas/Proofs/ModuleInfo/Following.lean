import DesignAtlas.Proofs.ModuleInfo.Instances
import DesignAtlas.Proofs.Token.Follow

/-! # Instantiations behind a module item

A body grows by an instantiation on a new line. Statements are cut at semicolons only, so the text
behind the last semicolon becomes the front of the new statement. The words that end a task or a
function are cut off there; any other text, such as the `end` of a block, stays in front of the
instantiation and hides it.

* `ofBody_append`: the statements before the new one stay as they are.
* `keepsInstantiations_iff`: instantiations behind a body are recorded exactly when nothing but ends
  of tasks and functions stands behind its last semicolon. -/

namespace DesignAtlas

open Text (Firm)

/-! ### The end of a body -/

/-- The words that end a module item. -/
def itemEnds : List String := ["end", "endcase", "endtask", "endfunction"]

/-- Whether the last token of a text ends a module item. -/
def Text.closesItem (t : Text) : Bool :=
  (Token.scan t).getLast?.any fun tok =>
    tok.payload == .symbol .semicolon || itemEnds.any fun w => tok.payload == .identifier w

/-- The text behind the last semicolon. -/
def Text.lastPiece (t : Text) : Text := t.rtakeWhile fun c => !(c == ';')

/-- What is left of the text behind the last semicolon once the words that end tasks and functions
are cut off its front. -/
def Text.lastRest (t : Text) : Text := (Statement.dropEnds (Text.trim t.lastPiece)).2

/-- Nothing but ends of tasks and functions stands behind the last semicolon. -/
def Text.OnlyEnds (t : Text) : Prop := t.lastRest = []

instance (t : Text) : Decidable t.OnlyEnds := inferInstanceAs (Decidable (t.lastRest = []))

/-- A text that closes an item has a last visible character, which is no colon. -/
theorem Text.exists_last_of_closesItem {t : Text} (h : t.closesItem = true) :
    ∃ (u : Text) (c : Char) (b : Text), t = u ++ c :: b ∧ (∀ d ∈ b, isBlank d = true) ∧
      isBlank c = false ∧ c ≠ ':' := by
  obtain ⟨tok, htok, hend⟩ := (Option.any_eq_true ..).mp h
  simp only [Bool.or_eq_true, beq_iff_eq, List.any_eq_true] at hend
  rcases hend with hend | ⟨w, hw, hend⟩
  · obtain ⟨u, g, b, rfl, hb, hr, hg⟩ := Token.exists_last_glyph htok
    rw [hr.symbol_text (hg.trans hend)]
    exact ⟨u, ';', b, by simp [Symbol.char], hb, by decide, by decide⟩
  · obtain ⟨u, b, rfl, hb⟩ := Token.exists_last_word (w := w) htok (by rw [hend]; rfl)
    obtain ⟨v, c, hv, hc1, hc2⟩ : ∃ v c, w.toList = v ++ [c] ∧ isBlank c = false ∧ c ≠ ':' := by
      simp only [itemEnds, List.mem_cons, List.not_mem_nil, or_false] at hw
      rcases hw with rfl | rfl | rfl | rfl
      · exact ⟨['e', 'n'], 'd', rfl, by decide, by decide⟩
      · exact ⟨['e', 'n', 'd', 'c', 'a', 's'], 'e', rfl, by decide, by decide⟩
      · exact ⟨['e', 'n', 'd', 't', 'a', 's'], 'k', rfl, by decide, by decide⟩
      · exact ⟨['e', 'n', 'd', 'f', 'u', 'n', 'c', 't', 'i', 'o'], 'n', rfl, by decide, by decide⟩
    exact ⟨u ++ v, c, b, by simp [hv], hb, hc1, hc2⟩

/-- The last piece of a text that closes an item is firm, but for blanks behind it. -/
theorem Text.exists_firm_lastPiece {t : Text} (h : t.closesItem = true) :
    ∃ f b : Text, t.lastPiece = f ++ b ∧ Firm f ∧ ∀ c ∈ b, isBlank c = true := by
  obtain ⟨u, c, b, rfl, hb, hc1, hc2⟩ := Text.exists_last_of_closesItem h
  have hsemi : ∀ d ∈ b, (!(d == ';')) = true := by
    intro d hd
    have : d ≠ ';' := by
      rintro rfl
      exact absurd (hb _ hd) (by decide)
    simpa using this
  have hgrow : ∀ v : Text, (v ++ b).lastPiece = v.lastPiece ++ b := by
    intro v
    unfold Text.lastPiece List.rtakeWhile
    rw [List.reverse_append, List.takeWhile_append_of_pos fun d hd => hsemi d (by simpa using hd)]
    simp
  rw [show u ++ c :: b = u ++ [c] ++ b by simp, hgrow]
  refine ⟨_, b, rfl, ?_, hb⟩
  unfold Text.lastPiece
  by_cases hc : c = ';'
  · rw [List.rtakeWhile_concat_neg _ _ _ (by simp [hc])]
    exact Text.firm_nil
  · rw [List.rtakeWhile_concat_pos _ _ _ (by simpa using hc)]
    intro d hd
    obtain rfl : c = d := by simpa using hd
    exact ⟨hc1, hc2⟩

theorem Text.firm_lastRest {t : Text} (h : t.closesItem = true) : Firm t.lastRest := by
  obtain ⟨f, b, hlast, hf, hb⟩ := Text.exists_firm_lastPiece h
  rw [Text.lastRest, hlast, Text.trim_append_blanks hf hb]
  exact Statement.firm_dropEnds hf.trimStart

/-! ### The statements of the longer body -/

theorem Statement.firm_glue {gap t : Text} (ht : t.IsStatement) (r : Text) :
    Firm (Statement.glue gap t r) := by
  have hne : t ≠ [] := by
    rintro rfl
    obtain ⟨c, hc, -⟩ := ht.begins
    cases hc
  unfold Statement.glue
  split_ifs
  · exact ht.firm
  · rw [← List.append_assoc]
    exact ht.firm.append hne _

/-- **The last statement of a body grows by the text on a new line behind it,** and the statements
before it stay as they are. -/
theorem Statement.ofBody_append (o : Options) {body : Text} (hb : '\x60' ∉ body)
    (hbody : body.closesItem = true) :
    ∃ (ss : List Statement) (gap : Text), (∀ c ∈ gap, isBlank c = true) ∧ gap ≠ [] ∧
      (∃ s, ofBody o body = ss ++ [s] ∧ s.text = body.lastRest) ∧
      ∀ t : Text, t.IsStatement → ∃ s s', ofBody o (body ++ '\n' :: (t ++ [';'])) = ss ++ [s, s'] ∧
        s.text = glue gap t body.lastRest ∧ s.conditionals = [] ∧ s'.text = [] := by
  obtain ⟨f, b, hlast, hf, hblank⟩ := Text.exists_firm_lastPiece hbody
  obtain ⟨ps, hps⟩ := Text.exists_split_append (· == ';') body
  rw [← Text.lastPiece, hlast] at hps
  have hgap : ∀ c ∈ b ++ ['\n'], isBlank c = true := by
    intro c hc
    rcases List.mem_append.mp hc with hc | hc
    · exact hblank c hc
    · rw [List.mem_singleton.mp hc]; exact isBlank_newline
  have hrest : body.lastRest = (dropEnds (Text.trimStart f)).2 := by
    rw [Text.lastRest, hlast, Text.trim_append_blanks hf hblank]
  refine ⟨ofFragments 0 (fragments ps), b ++ ['\n'], hgap, by simp, ?_, fun t ht => ?_⟩
  · have hsplit := hps ['\n'] (by simp)
    rw [List.append_assoc] at hsplit
    rw [ofBody_of_plain o hb, hsplit, fragments, List.map_append, ofFragments_append]
    refine ⟨_, rfl, ?_⟩
    rw [hrest, ← Text.trim_append_blanks hf hgap]
  · -- the semicolon ends the new statement, and a blank piece follows it
    have hplain : '\x60' ∉ body ++ '\n' :: (t ++ [';']) := by
      have := ht.plain
      simp [hb, this]
    have hnone : ∀ c ∈ '\n' :: t, (c == ';') = false := by
      intro c hc
      rcases List.mem_cons.mp hc with rfl | hc
      · decide
      · exact ht.noSemicolon c hc
    have hsplit : Text.split (· == ';') (body ++ '\n' :: (t ++ [';']) ++ ['\n']) =
        ps ++ [f ++ (b ++ ['\n'] ++ t), ['\n']] := by
      have hcut : body ++ '\n' :: (t ++ [';']) ++ ['\n'] =
          (body ++ '\n' :: t) ++ ';' :: ['\n'] := by simp
      rw [hcut, Text.split_append_sep (by decide), hps _ hnone,
        Text.split_of_none (t := ['\n']) (by simp)]
      simp
    have htrim : Text.trim (f ++ (b ++ ['\n'] ++ t)) =
        glue (b ++ ['\n']) t (Text.trimStart f) := by
      rw [Text.trim, trimStart_append_glue hgap ht.begins hf, (firm_glue ht _).trimEnd]
    have htext : (dropEnds (Text.trim (f ++ (b ++ ['\n'] ++ t)))).2 =
        glue (b ++ ['\n']) t body.lastRest := by
      rw [hrest, htrim, dropEnds_glue hgap (by simp) ht.begins ht.noEnd hf.trimStart]
    have hnil : (dropEnds (Text.trim ['\n'])).2 = [] := by
      rw [Text.trim_of_blank blank_newline, dropEnds_nil]
    rw [ofBody_of_plain o hplain, hsplit, fragments, List.map_append, ofFragments_append]
    exact ⟨_, _, rfl, htext, rfl, hnil⟩

/-! ### What is recorded -/

namespace ModuleInfo

theorem recorded?_nil {o : Options} {s : Statement} (h : s.text = []) : recorded? o s = none := by
  have hnone : Instance.ofStatement? o s = none := by
    simp [Instance.ofStatement?, h, Text.words]
  simp [recorded?, hnone]

theorem recorded?_instantiation {o : Options} {callee i : Word} {ps : Connections}
    (hc : callee.IsCallable o) (hi : i.IsIdentifier) {s : Statement}
    (hs : s.text = instantiation callee i ps) : recorded? o s =
      some ⟨callee.name, some i.name, String.ofList (instantiation callee i ps),
        s.conditionals⟩ := by
  obtain ⟨t, conditionals, sub⟩ := s
  subst hs
  unfold recorded?
  rw [Parameter.ofStatement?_instantiation hc.identifier hi,
    PinDecl.beginsWithDirection_instantiation hc.identifier,
    Instance.ofStatement?_instantiation hi hc.unreserved]
  simp

/-- The callee of a recorded instance is the identifier at the front of the statement. -/
theorem callee_of_recorded? {o : Options} {s : Statement} {x : Instance}
    (h : recorded? o s = some x) :
    ((Text.words s.text).head?.bind Instance.calleeOf?).map String.ofList = some x.callee := by
  unfold recorded? at h
  split_ifs at h
  unfold Instance.ofStatement? at h
  split at h
  · rename_i w v u us hw
    split_ifs at h
    obtain ⟨callee, hcallee, rfl⟩ := Option.map_eq_some_iff.mp h
    simp [hw, hcallee]
  · cases h

end ModuleInfo

/-- The connection of one pin, `(.a(a))`. -/
def Connections.onePin : Connections where
  glyphs :=
    let a : Word := ⟨['a'], rfl⟩
    [Symbol.dot.glyph [], a.glyph [], Symbol.openParen.glyph [], a.glyph [],
      Symbol.closeParen.glyph [], Symbol.closeParen.glyph []]
  reads := by
    refine ⟨Symbol.reads _ blank_nil _, Word.reads _ blank_nil ?_, Symbol.reads _ blank_nil _,
      Word.reads _ blank_nil ?_, Symbol.reads _ blank_nil _, Symbol.reads _ blank_nil _, trivial⟩
    · rintro c ⟨⟩; rfl
    · rintro c ⟨⟩; rfl
  free := by decide
  solid := by decide
  closed := by decide

/-- The body with the line `callee i (.a(a));` behind it. -/
def Text.withInstantiation (body : Text) (callee i : Word) : Text :=
  body ++ '\n' :: (callee.text ++ ' ' :: (i.text ++ " (.a(a));".toList))

theorem Text.withInstantiation_eq (body : Text) (callee i : Word) :
    body.withInstantiation callee i =
      body ++ '\n' :: (instantiation callee i .onePin ++ [';']) := by
  have hpins : " (.a(a));".toList = ' ' :: Connections.onePin.text ++ [';'] := by decide
  rw [withInstantiation, hpins]
  simp [instantiation]

namespace ModuleInfo

/-- A declaration that is all body. -/
def bare (body : Text) : ModuleDecl :=
  ⟨"", ⟨.start, .start⟩, none, none, ⟨.start, Position.start.advance body⟩⟩

theorem body_bare (t : Text) : (bare t).body t = t := by
  have := Span.slice_append [] t []
  rwa [List.append_nil, List.nil_append] at this

section Behind

variable {o : Options} {body : Text} (hb : '\x60' ∉ body) (hbody : body.closesItem = true)
include hb hbody

/-- An instantiation behind ends of tasks and functions is recorded as it is written. -/
theorem instances_withInstantiation (hends : body.OnlyEnds) {callee i : Word}
    (hc : callee.IsCallable o) (hi : i.IsIdentifier) {file file' : String} {source source' : Text}
    {d d' : ModuleDecl} (hd : d.body source = body)
    (hd' : d'.body source' = body.withInstantiation callee i) :
    (ofDecl file' source' o d').1.instances = (ofDecl file source o d).1.instances ++
      [⟨callee.name, some i.name, String.ofList (instantiation callee i .onePin), []⟩] := by
  obtain ⟨ss, gap, -, -, ⟨s, hs, htext⟩, hmore⟩ := Statement.ofBody_append o hb hbody
  obtain ⟨s', s'', hs', htext', hcond, hnil⟩ :=
    hmore _ (isStatement_instantiation hc i .onePin)
  rw [Text.OnlyEnds] at hends
  rw [hends] at htext htext'
  have hrec := recorded?_instantiation hc hi htext'
  rw [instances_ofDecl, instances_ofDecl, hd, hd', Text.withInstantiation_eq, hs', hs,
    List.filterMap_append, List.filterMap_append]
  simp [recorded?_nil htext, recorded?_nil hnil, hrec, hcond]

/-- One more instance behind any other text has its callee from that text. -/
theorem callee_of_instances_append (hrest : ¬ body.OnlyEnds) {callee i : Word}
    (hc : callee.IsCallable o) {file file' : String} {source source' : Text} {d d' : ModuleDecl}
    (hd : d.body source = body) (hd' : d'.body source' = body.withInstantiation callee i)
    {x : Instance} (h : (ofDecl file' source' o d').1.instances =
      (ofDecl file source o d).1.instances ++ [x]) :
    ((Text.words body.lastRest).head?.bind Instance.calleeOf?).map String.ofList =
      some x.callee := by
  obtain ⟨ss, gap, hgap, hne, ⟨s, hs, htext⟩, hmore⟩ := Statement.ofBody_append o hb hbody
  obtain ⟨s', s'', hs', htext', -, hnil⟩ :=
    hmore _ (isStatement_instantiation hc i .onePin)
  rw [instances_ofDecl, instances_ofDecl, hd, hd', Text.withInstantiation_eq, hs', hs,
    List.filterMap_append, List.filterMap_append, List.append_assoc,
    List.append_cancel_left_eq] at h
  have hx : recorded? o s' = some x := by
    cases h1 : recorded? o s' <;> cases h2 : recorded? o s <;> simp_all [recorded?_nil hnil]
  have hcallee := callee_of_recorded? hx
  obtain ⟨c, gap, rfl⟩ := List.exists_cons_of_ne_nil hne
  have hfirm : Firm body.lastRest := Text.firm_lastRest hbody
  rw [htext', Statement.glue_of_ne hrest, List.cons_append,
    Text.words_append_blank (hgap c (by simp)),
    List.head?_append_of_ne_nil _ (hfirm.words_ne_nil hrest)] at hcallee
  exact hcallee

end Behind

/-- Every instantiation on a new line behind the body is recorded: the module has the instances of
the body and one more, of that callee. -/
def KeepsInstantiations (body : Text) : Prop :=
  ∀ callee i : Word, callee.IsCallable {} → i.IsIdentifier →
    ∀ (file file' : String) (source source' : Text) (d d' : ModuleDecl), d.body source = body →
      d'.body source' = body.withInstantiation callee i →
        ∃ x : Instance, x.callee = callee.name ∧
          (ofDecl file' source' {} d').1.instances = (ofDecl file source {} d).1.instances ++ [x]

/-- **Instantiations behind a module item are recorded exactly when nothing but ends of tasks and
functions stands behind the last semicolon.** -/
theorem keepsInstantiations_iff {body : Text} (hb : '\x60' ∉ body)
    (hbody : body.closesItem = true) : KeepsInstantiations body ↔ body.OnlyEnds := by
  constructor
  · intro h
    by_contra hrest
    -- the callee does not depend on the word that stands behind the body
    have hcallee : ∀ w : Word, w.IsCallable {} →
        ((Text.words body.lastRest).head?.bind Instance.calleeOf?).map String.ofList =
          some w.name := by
      intro w hw
      obtain ⟨x, hx, hinst⟩ := h w w hw hw.identifier "" "" body (body.withInstantiation w w)
        (bare body) (bare _) (body_bare _) (body_bare _)
      rw [← hx]
      exact callee_of_instances_append hb hbody hrest hw (body_bare _) (body_bare _) hinst
    have hu := hcallee ⟨['u'], rfl⟩ (by decide)
    have hv := hcallee ⟨['v'], rfl⟩ (by decide)
    rw [hu] at hv
    exact absurd hv (by decide)
  · intro hends callee i hc hi file file' source source' d d' hd hd'
    exact ⟨_, rfl, instances_withInstantiation hb hbody hends hc hi hd hd'⟩

/-- Behind the end of a task instantiations are recorded, behind the end of a block they are not. -/
theorem keepsInstantiations_task_block :
    KeepsInstantiations "task t; input q; endtask".toList ∧
      ¬ KeepsInstantiations "always @(posedge k) begin x <= y; end".toList :=
  ⟨(keepsInstantiations_iff (by decide) (by decide +kernel)).mpr (by decide +kernel), fun h =>
    absurd ((keepsInstantiations_iff (by decide) (by decide +kernel)).mp h) (by decide +kernel)⟩

end ModuleInfo

end DesignAtlas
