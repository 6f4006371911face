import DesignAtlas.Proofs.Comment.Newline
import DesignAtlas.Proofs.Design.Found
import DesignAtlas.Proofs.ModuleDecl.Append

/-! # Cutting a source file between two modules

A source file may be cut at a newline behind the `endmodule` of its last module so far. Comments are
stripped, tokens are scanned and declarations are read on each side as if the other were not there:

* `strip_cut`: a file that ends with an `endmodule`, and not in a block comment, leaves no comment
  or string open behind the newline;
* `ofSource_newline`: the declarations of both sides are those of the first and, moved, those of the
  second;
* `ofDecl_append_right`, `ofDecl_behind`: a declaration gives the same module in the longer text;
* `ofFiles_cut`: so the two parts of the file, as files of their own, give the same design. -/

namespace DesignAtlas

/-! ### The end of the first part -/

/-- The last token of the source is the `endmodule` that ends its last declaration. -/
def ModuleDecl.EndsWithLast (source : Text) : Prop :=
  ∃ tok ∈ (Token.scan source).getLast?, tok.payload = .keyword .endmodule ∧
    ∃ d ∈ (ofSource source).getLast?, d.bodySpan.limit = tok.span.start

instance (source : Text) : Decidable (ModuleDecl.EndsWithLast source) :=
  inferInstanceAs (Decidable (∃ tok ∈ (Token.scan source).getLast?, _))

theorem Keyword.getLast?_word (k : Keyword) :
    ∃ c, k.word.toList.getLast? = some c ∧ c ≠ '/' ∧ c ≠ '\x5c' := by
  cases k <;> exact ⟨_, rfl, by decide, by decide⟩

/-- A text whose last token is a keyword ends with a letter or a blank. -/
theorem Token.getLast?_of_keyword {t : Text} {tok : Token} {k : Keyword}
    (h : (scan t).getLast? = some tok) (hk : tok.payload = .keyword k) :
    ∃ c, t.getLast? = some c ∧ c ≠ '/' ∧ c ≠ '\x5c' := by
  obtain ⟨pre, b, rfl, hb⟩ := exists_last_word (w := k.word) h (by rw [hk]; rfl)
  obtain ⟨c, hc, hc1, hc2⟩ := Keyword.getLast?_word k
  rcases List.eq_nil_or_concat b with rfl | ⟨l, x, rfl⟩
  · rw [List.append_nil, List.getLast?_append, hc]
    exact ⟨c, rfl, hc1, hc2⟩
  · have hx : isBlank x = true := hb x (by simp)
    refine ⟨x, by simp, ?_, ?_⟩
    · rintro rfl; exact absurd hx (by decide)
    · rintro rfl; exact absurd hx (by decide)

theorem strip_cut {a : Text} (hb : ¬ Comment.EndsInBlock a)
    (he : ModuleDecl.EndsWithLast (Comment.strip a)) (b : Text) :
    Comment.strip (a ++ '\n' :: b) = Comment.strip a ++ '\n' :: Comment.strip b := by
  obtain ⟨tok, htok, hk, -⟩ := he
  obtain ⟨c, hc, hc1, hc2⟩ := Token.getLast?_of_keyword htok hk
  apply Comment.strip_newline
  by_contra hs
  rcases Comment.getLast?_strip hs hb with h | h
  · rw [hc] at h; exact hc1 (Option.some.inj h)
  · rw [hc] at h; exact hc2 (Option.some.inj h)

/-! ### The declarations of both parts -/

namespace ModuleDecl

theorem relocate_id : relocate id = id := by
  funext d
  have h : Span.relocate id = id := rfl
  simp [relocate, h]

/-- **The declarations on both sides of a newline** are those of the first part and, moved, those of
the second. -/
theorem ofSource_newline {a : Text} (he : EndsWithLast a) (b : Text) :
    ofSource (a ++ '\n' :: b) = ofSource a ++
      (ofSource b).map (relocate (Position.behind (Position.start.advance (a ++ ['\n'])))) := by
  obtain ⟨tok, htok, hk, d, hd, hlim⟩ := he
  obtain ⟨ts, tok', hts, hp, hstart, hscan⟩ := Token.scan_newline htok hk b
  -- the limit of the last token does not matter
  have hal : List.Forall₂ (Token.Alike id) (ts ++ [tok]) (ts ++ [tok']) := by
    refine List.rel_append (List.forall₂_same.mpr fun t _ => ⟨rfl, rfl, fun _ => rfl⟩) ?_
    exact .cons ⟨hp, hstart, fun hne => absurd hk hne⟩ .nil
  have hsame : succeeded (attempts (ts ++ [tok'])) = ofSource a := by
    rw [attempts_alike hal, succeeded_relocate, relocate_id, List.map_id, ofSource, attemptsIn, hts]
  have hpair : (ts ++ [tok']).Pairwise fun x y => x.span.start ≠ y.span.start := by
    have := Token.pairwise_scan a
    rw [hts, List.pairwise_append] at this
    refine List.pairwise_append.mpr ⟨this.1, List.pairwise_singleton _ _, fun x hx y hy => ?_⟩
    rw [List.mem_singleton.mp hy, hstart]
    exact this.2.2 x hx tok (by simp)
  have hlast : (ts ++ [tok']).getLast? = some tok' := by simp
  have happ : attempts (ts ++ [tok'] ++ Token.scanFrom (Position.start.advance (a ++ ['\n'])) b) =
      attempts (ts ++ [tok']) ++
        attempts (Token.scanFrom (Position.start.advance (a ++ ['\n'])) b) :=
    attempts_append hpair hlast (by rw [hsame]; exact hd) (by rw [hlim, hstart]) _
  rw [ofSource, attemptsIn, hscan, List.append_cons, happ,
    attempts_alike (Token.scanFrom_alike _ b)]
  unfold succeeded at hsame ⊢
  rw [List.filterMap_append, hsame]
  exact congrArg _ (succeeded_relocate _)

end ModuleDecl

/-! ### A declaration in a longer text -/

namespace ModuleInfo

/-- The module of a declaration is made of the texts of its parts. -/
theorem ofDecl_congr {source source' : Text} {d d' : ModuleDecl} (hn : d.name = d'.name)
    (hp : d.parameterBlock? source = d'.parameterBlock? source')
    (hl : d.pinList source = d'.pinList source') (hb : d.body source = d'.body source')
    (file : String) (o : Options) :
    ofDecl file source o d = ofDecl file source' o d' := by
  unfold ofDecl contents headerContents
  rw [hn, hp, hl, hb]

theorem ofDecl_append_right {source : Text} {d : ModuleDecl} (hd : d ∈ ModuleDecl.ofSource source)
    (u : Text) (file : String) (o : Options) :
    ofDecl file (source ++ u) o d = ofDecl file source o d := by
  have hstart : source.IsCut Position.start.offset := Text.isCut_zero source
  have hends : d.Ends fun p => source.IsCut p.offset :=
    ModuleDecl.ends_of_tokens hstart (fun t ht => Token.isCut_scan ht) hd
  have hbody : d.body (source ++ u) = d.body source :=
    Span.slice_append_right hends.body.1 hends.body.2 u
  refine ofDecl_congr rfl ?_ ?_ hbody file o
  · unfold ModuleDecl.parameterBlock?
    rcases h : d.parameterSpan with _ | s
    · rfl
    · obtain ⟨h1, h2⟩ := hends.parameters s h
      rw [Option.map_some, Option.map_some, Span.slice_append_right h1 h2]
  · unfold ModuleDecl.pinList
    rcases h : d.pinSpan with _ | s
    · rfl
    · obtain ⟨h1, h2⟩ := hends.pins s h
      exact Span.slice_append_right h1 h2 u

theorem ofDecl_behind {q : Position} {a : Text} (hq : q.offset = a.byteLength) (b : Text)
    (d : ModuleDecl) (file : String) (o : Options) :
    ofDecl file (a ++ b) o (d.relocate (Position.behind q)) = ofDecl file b o d := by
  have hname : (d.relocate (Position.behind q)).name = d.name := rfl
  exact ofDecl_congr hname (ModuleDecl.parameterBlock?_behind hq b d)
    (ModuleDecl.pinList_behind hq b d) (ModuleDecl.body_behind hq b d) file o

end ModuleInfo

/-! ### The design of both parts -/

namespace Design

theorem found_cut {a : Text} (hb : ¬ Comment.EndsInBlock a)
    (he : ModuleDecl.EndsWithLast (Comment.strip a)) (o : Options) (path : String) (b : Text) :
    found o ⟨path, a ++ '\n' :: b⟩ = found o ⟨path, a⟩ ++ found o ⟨path, b⟩ := by
  unfold found declared
  simp only [strip_cut hb he, ModuleDecl.ofSource_newline he, List.map_append, List.map_map]
  congr 1
  · exact List.map_congr_left fun d hd => ModuleInfo.ofDecl_append_right hd _ path o
  · refine List.map_congr_left fun d _ => ?_
    rw [Function.comp, List.append_cons]
    exact ModuleInfo.ofDecl_behind (by simp [Position.start]) _ d path o

/-- **Cutting a file between two modules changes nothing.** The first part does not end inside a
block comment and its last token is the `endmodule` of its last module. Then, among any other files,
the file and its two parts give the same design and the same diagnostics. -/
theorem ofFiles_cut (o : Options) (path : String) {a : Text} (b : Text)
    (hb : ¬ Comment.EndsInBlock a) (he : ModuleDecl.EndsWithLast (Comment.strip a))
    (before after : List SourceFile) :
    ofFiles o (before ++ ⟨path, a ++ '\n' :: b⟩ :: after) =
      ofFiles o (before ++ ⟨path, a⟩ :: ⟨path, b⟩ :: after) := by
  rw [ofFiles_eq, ofFiles_eq]
  simp only [List.flatMap_append, List.flatMap_cons, found_cut hb he, List.append_assoc]

/-- A cut behind a line comment with an open quote, before a module that is never ended. -/
theorem ofFiles_cut_comment :
    let a : Text := "module a (x);\n  b u (x);\nendmodule // it's \"".toList
    let b : Text := "module a (y); endmodule\nmodule b (".toList
    ¬ Comment.EndsInBlock a ∧ ModuleDecl.EndsWithLast (Comment.strip a) ∧
    ofFiles {} ([] ++ ⟨"a.v", a ++ '\n' :: b⟩ :: []) =
      ofFiles {} ([] ++ ⟨"a.v", a⟩ :: ⟨"a.v", b⟩ :: []) := by
  intro a b
  have hb : ¬ Comment.EndsInBlock a := by decide +kernel
  have he : ModuleDecl.EndsWithLast (Comment.strip a) := by decide +kernel
  exact ⟨hb, he, ofFiles_cut {} "a.v" b hb he [] []⟩

end Design

end DesignAtlas
