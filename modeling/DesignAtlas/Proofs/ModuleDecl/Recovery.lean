import DesignAtlas.Proofs.ModuleDecl.Runs

/-! # Behind a malformed header

An attempt at a declaration may find no header behind its keyword. It has then taken some tokens,
and reading goes on behind these, not behind the keyword. What it takes is laid down by the point at
which the header goes wrong (`TakesMalformed`): nothing at the end of the source, one token that is
no name, a name and a hash, the name with its blocks when the semicolon is missing, and all that is
left when a parenthesis is not closed.

`ofSource_resumes`: behind a malformed header the declarations are those of the text behind the
tokens taken. They are those of the text behind the keyword when no module keyword was taken; a
declaration whose keyword was taken is lost. -/

namespace DesignAtlas

open DeclRun (parameterTokens pinTokens)

/-! ### The text behind a token -/

namespace Token

/-- The text that starts right behind the token. -/
def textBehind (source : Text) (t : Token) : Text := source.dropBytes t.span.limit.offset

/-- **The tokens behind a token** are those of the text behind it. -/
theorem scan_behind {source : Text} {pre post : List Token} {k : Token}
    (h : scan source = pre ++ k :: post) :
    ∃ a, source = a ++ textBehind source k ∧ k.span.limit.offset = a.byteLength ∧
      post = scanFrom k.span.limit (textBehind source k) := by
  obtain ⟨gs, tail, rfl, hb, hr⟩ := Glyph.exists_layout source
  rw [scan, Glyph.scanFrom_spell_blank hr hb] at h
  obtain ⟨as, bs, rfl, -, hbs⟩ := Glyph.place_eq_append h
  cases bs with
  | nil => cases hbs
  | cons g bs =>
    rw [Glyph.place_cons, List.cons.injEq] at hbs
    obtain ⟨rfl, rfl⟩ := hbs
    have hlimit : (g.token (Position.start.advance (Glyph.spell as))).span.limit.offset =
        (Glyph.spell as ++ g.spelling).byteLength := by
      simp [Position.start]
    have htext : Glyph.spell (as ++ g :: bs) ++ tail =
        Glyph.spell as ++ g.spelling ++ (Glyph.spell bs ++ tail) := by
      simp
    have hbehind : textBehind (Glyph.spell (as ++ g :: bs) ++ tail)
        (g.token (Position.start.advance (Glyph.spell as))) = Glyph.spell bs ++ tail := by
      rw [textBehind, hlimit, htext, Text.dropBytes_append]
    refine ⟨Glyph.spell as ++ g.spelling, by rw [hbehind, htext], hlimit, ?_⟩
    rw [hbehind, Glyph.scanFrom_spell_blank (Glyph.readAll_append.mp hr).2.2 hb]
    simp

/-- Tokens that begin at the same place are the same token of a list. -/
theorem eq_of_start {ts pre pre' post post' : List Token} {t t' : Token}
    (hp : ts.Pairwise fun a b => a.span.start ≠ b.span.start) (h : ts = pre ++ t :: post)
    (h' : ts = pre' ++ t' :: post') (hs : t.span.start = t'.span.start) :
    pre = pre' ∧ t = t' ∧ post = post' := by
  subst h
  rcases List.append_eq_append_iff.mp h' with ⟨as, rfl, hpost⟩ | ⟨as, rfl, hpost⟩
  · cases as with
    | nil => simpa using hpost
    | cons u us =>
      rw [List.cons_append, List.cons.injEq] at hpost
      obtain ⟨rfl, rfl⟩ := hpost
      have hafter : t.span.start ≠ t'.span.start :=
        List.rel_of_pairwise_cons (List.pairwise_append.mp hp).2.1 (by simp)
      exact absurd hs hafter
  · cases as with
    | nil => simpa [eq_comm] using hpost
    | cons u us =>
      rw [List.cons_append, List.cons.injEq] at hpost
      obtain ⟨rfl, rfl⟩ := hpost
      have hbefore := (List.pairwise_append.mp hp).2.2 t' (by simp) t (by simp)
      exact absurd hs.symm hbefore

end Token

namespace ModuleDecl

/-! ### Headers -/

/-- The tokens begin with a name, perhaps a parameter block, perhaps a pin list, and a semicolon. -/
def BeginsHeader (ts : List Token) : Prop :=
  ∃ name s parameters pins semicolon rest, ts = ⟨.identifier name, s⟩ ::
    (parameterTokens parameters ++ (pinTokens pins ++ ⟨.symbol .semicolon, semicolon⟩ :: rest))

/-- The tokens begin with the symbol. -/
def Begins (s : Symbol) (ts : List Token) : Prop := ∃ t ∈ ts.head?, t.payload = .symbol s

/-- No parenthesis closes the one before the tokens. -/
def Unclosed (ts : List Token) : Prop :=
  ∀ inner close rest, ts = inner ++ close :: rest → Token.Balanced inner →
    close.payload ≠ .symbol .closeParen

/-- **What an attempt takes of tokens that begin no header,** and what it leaves. -/
inductive TakesMalformed : List Token → List Token → Prop
  /-- There is nothing behind the keyword. -/
  | nothing : TakesMalformed [] []
  /-- The token behind the keyword is no name. -/
  | noName (t : Token) (rest : List Token) (h : ∀ n, t.payload ≠ .identifier n) :
      TakesMalformed [t] rest
  /-- No parenthesis opens behind the hash. -/
  | noBlock (name : String) (s hash : Span) (rest : List Token) (h : ¬ Begins .openParen rest) :
      TakesMalformed [⟨.identifier name, s⟩, ⟨.symbol .hash, hash⟩] rest
  /-- The parameter block is not closed. -/
  | openBlock (name : String) (s hash opening : Span) (ts : List Token) (h : Unclosed ts) :
      TakesMalformed (⟨.identifier name, s⟩ :: ⟨.symbol .hash, hash⟩ ::
        ⟨.symbol .openParen, opening⟩ :: ts) []
  /-- The pin list is not closed. -/
  | openPins (name : String) (s : Span) (parameters : Option (Span × Token.Group)) (opening : Span)
      (ts : List Token) (h : Unclosed ts) :
      TakesMalformed (⟨.identifier name, s⟩ ::
        (parameterTokens parameters ++ ⟨.symbol .openParen, opening⟩ :: ts)) []
  /-- No semicolon follows what there is of a header. -/
  | noSemicolon (name : String) (s : Span) (parameters : Option (Span × Token.Group))
      (pins : Option Token.Group) (rest : List Token) (hsemicolon : ¬ Begins .semicolon rest)
      (hpins : pins = none → ¬ Begins .openParen rest)
      (hparameters : parameters = none → pins = none → ¬ Begins .hash rest) :
      TakesMalformed (⟨.identifier name, s⟩ :: (parameterTokens parameters ++ pinTokens pins)) rest

section Malformed

variable {name : String} {s : Span} {a b : Option Span} {ts : List Token}

theorem begins_iff {c : Symbol} : Begins c ts ↔ ∃ place us, ts = ⟨.symbol c, place⟩ :: us := by
  constructor
  · rintro ⟨⟨p, place⟩, ht, hp⟩
    obtain ⟨us, rfl⟩ := List.head?_eq_some_iff.mp ht
    obtain rfl : p = .symbol c := hp
    exact ⟨place, us, rfl⟩
  · rintro ⟨place, us, rfl⟩
    exact ⟨_, rfl, rfl⟩

theorem not_begins_cons {c : Symbol} {t : Token} (h : ¬ Begins c (t :: ts)) :
    t.payload ≠ .symbol c := fun ht => h ⟨t, rfl, ht⟩

theorem unclosed_of_closeParen? (h : Token.closeParen? 0 ts = none) : Unclosed ts := by
  intro inner close rest hts hb hc
  have hsome : Token.closeParen? 0 ts = some ⟨inner, close, rest⟩ :=
    Token.closeParen?_eq_some_iff.mpr ⟨hb, beq_iff_eq.mpr hc, hts.symm⟩
  rw [h] at hsome
  cases hsome

theorem readBody_of_not_begins (h : ¬ Begins .semicolon ts) :
    readBody name s a b ts = (.error (.semicolonExpected name), ts) := by
  cases ts with
  | nil => rfl
  | cons t ts => rw [readBody_cons, if_neg (not_begins_cons h)]

theorem readPins_of_not_begins (h : ¬ Begins .openParen ts) :
    readPins name s a ts = readBody name s a none ts := by
  cases ts with
  | nil => rfl
  | cons t ts => rw [readPins_cons, if_neg (not_begins_cons h)]

theorem readParameters_of_not_begins (h : ¬ Begins .hash ts) :
    readParameters name s ts = readPins name s none ts := by
  cases ts with
  | nil => rfl
  | cons t ts => rw [readParameters_cons, if_neg (not_begins_cons h)]

/-- The outcome is an error and the tokens that it leaves stand behind those taken. -/
def Fails (ts taken : List Token) (x : Outcome) : Prop :=
  ts = taken ++ x.2 ∧ ∃ e, x.1 = .error e

/-! ### What a malformed header takes -/

theorem takesMalformed_pins (parameters : Option (Span × Token.Group))
    (h : ∀ pins semicolon rest, ts ≠ pinTokens pins ++ ⟨.symbol .semicolon, semicolon⟩ :: rest)
    (hhash : parameters = none → ¬ Begins .hash ts) :
    ∃ taken, TakesMalformed (⟨.identifier name, s⟩ :: (parameterTokens parameters ++ taken))
      (readPins name s a ts).2 ∧ Fails ts taken (readPins name s a ts) := by
  by_cases hopen : Begins .openParen ts
  · obtain ⟨opening, us, rfl⟩ := begins_iff.mp hopen
    rw [readPins_cons, if_pos rfl]
    cases hc : Token.closeParen? 0 us with
    | none =>
      exact ⟨_, .openPins name s parameters opening us (unclosed_of_closeParen? hc),
        (List.append_nil _).symm, _, rfl⟩
    | some e =>
      obtain ⟨g, -, -, -, hts⟩ := exists_group hc opening
      have hsemicolon : ¬ Begins .semicolon e.rest := by
        intro hb
        obtain ⟨semicolon, rest, hrest⟩ := begins_iff.mp hb
        exact h (some g) semicolon rest (by rw [hts, hrest]; rfl)
      simp only [readBody_of_not_begins hsemicolon]
      exact ⟨g.tokens, .noSemicolon name s parameters (some g) e.rest hsemicolon
        (fun hg => by cases hg) (fun _ hg => by cases hg), hts, _, rfl⟩
  · have hsemicolon : ¬ Begins .semicolon ts := by
      intro hb
      obtain ⟨semicolon, rest, rfl⟩ := begins_iff.mp hb
      exact h none semicolon rest rfl
    rw [readPins_of_not_begins hopen, readBody_of_not_begins hsemicolon]
    exact ⟨[], .noSemicolon name s parameters none ts hsemicolon (fun _ => hopen)
      (fun hp _ => hhash hp), rfl, _, rfl⟩

theorem takesMalformed_parameters (name : String) (s : Span)
    (h : ∀ parameters pins semicolon rest, ts ≠ parameterTokens parameters ++
      (pinTokens pins ++ ⟨.symbol .semicolon, semicolon⟩ :: rest)) :
    ∃ taken, TakesMalformed (⟨.identifier name, s⟩ :: taken) (readParameters name s ts).2 ∧
      Fails ts taken (readParameters name s ts) := by
  by_cases hhash : Begins .hash ts
  · obtain ⟨hash, us, rfl⟩ := begins_iff.mp hhash
    rw [readParameters_cons, if_pos rfl]
    by_cases hopen : Begins .openParen us
    · obtain ⟨opening, vs, rfl⟩ := begins_iff.mp hopen
      simp only [↓reduceIte]
      cases hc : Token.closeParen? 0 vs with
      | none =>
        exact ⟨_, .openBlock name s hash opening vs (unclosed_of_closeParen? hc),
          (List.append_nil _).symm, _, rfl⟩
      | some e =>
        obtain ⟨g, -, -, -, hvs⟩ := exists_group hc opening
        have hpins : ∀ pins semicolon rest,
            e.rest ≠ pinTokens pins ++ ⟨.symbol .semicolon, semicolon⟩ :: rest := by
          intro pins semicolon rest hrest
          exact h (some (hash, g)) pins semicolon rest (by rw [hvs, hrest]; rfl)
        obtain ⟨taken, htakes, hsplit, herror⟩ :=
          takesMalformed_pins (some (hash, g)) hpins fun hg => by cases hg
        exact ⟨_, htakes, by rw [hvs]; simpa [parameterTokens] using hsplit, herror⟩
    · cases us with
      | nil => exact ⟨_, .noBlock name s hash [] hopen, rfl, _, rfl⟩
      | cons u us =>
        simp only [if_neg (not_begins_cons hopen)]
        exact ⟨_, .noBlock name s hash (u :: us) hopen, rfl, _, rfl⟩
  · rw [readParameters_of_not_begins hhash]
    exact takesMalformed_pins none (fun pins => h none pins) fun _ => hhash

/-- **An attempt at no header fails,** and takes what the point of failure lays down. -/
theorem takesMalformed_read (h : ¬ BeginsHeader ts) :
    ∃ taken, TakesMalformed taken (read ts).2 ∧ Fails ts taken (read ts) := by
  cases ts with
  | nil => exact ⟨[], .nothing, rfl, _, rfl⟩
  | cons t ts =>
    by_cases hid : ∃ n, t.payload = .identifier n
    · obtain ⟨name, hname⟩ := hid
      obtain ⟨p, s⟩ := t
      obtain rfl : p = .identifier name := hname
      have hparameters : ∀ parameters pins semicolon rest, ts ≠ parameterTokens parameters ++
          (pinTokens pins ++ ⟨.symbol .semicolon, semicolon⟩ :: rest) := by
        intro parameters pins semicolon rest hts
        exact h ⟨name, s, parameters, pins, semicolon, rest, congrArg _ hts⟩
      obtain ⟨taken, htakes, hsplit, herror⟩ := takesMalformed_parameters name s hparameters
      rw [read_cons_identifier name _ ts rfl]
      exact ⟨_, htakes, congrArg _ hsplit, herror⟩
    · have hid' : ∀ n, t.payload ≠ .identifier n := fun n hn => hid ⟨n, hn⟩
      rw [read_cons_other t ts hid']
      exact ⟨[t], .noName t ts hid', rfl, _, rfl⟩

end Malformed

/-! ### The attempts from a keyword on -/

/-- **An attempt stands at a keyword,** and those behind it stand behind the tokens that it takes. -/
theorem exists_of_attempts {ts : List Token} {before after : List Attempt} {a : Attempt}
    (h : attempts ts = before ++ a :: after) : ∃ pre k post, ts = pre ++ k :: post ∧
      a.keyword = k.span ∧ a.result = (read post).1 ∧ after = attempts (read post).2 := by
  induction ts using attempts.induct generalizing before with
  | case1 => simp [attempts] at h
  | case2 t ts hk ih =>
    rw [attempts_cons, if_pos hk] at h
    cases before with
    | nil =>
      rw [List.nil_append, List.cons.injEq] at h
      obtain ⟨rfl, rfl⟩ := h
      exact ⟨[], t, ts, rfl, rfl, rfl, rfl⟩
    | cons b before =>
      rw [List.cons_append, List.cons.injEq] at h
      obtain ⟨pre, k, post, hrest, hspan⟩ := ih h.2
      obtain ⟨taken, htaken⟩ := (takes_read ts).1
      refine ⟨t :: (taken ++ pre), k, post, ?_, hspan⟩
      rw [List.cons_append, List.append_assoc, ← hrest, htaken]
  | case3 t ts hk ih =>
    rw [attempts_cons, if_neg hk] at h
    obtain ⟨pre, k, post, rfl, hspan⟩ := ih h
    exact ⟨t :: pre, k, post, rfl, hspan⟩

theorem attemptsIn_of_scan {source : Text} {k : Token} {ts : List Token}
    (h : Token.scan source = k :: ts) (hk : isModuleKeyword k) :
    attemptsIn source = ⟨k.span, (read ts).1⟩ :: attempts (read ts).2 := by
  rw [attemptsIn, h, attempts_cons, if_pos hk]

/-- A declaration by its texts. -/
structure Parts where
  name : String
  parameterBlock : Option Text
  pinList : Text
  body : Text
  deriving DecidableEq, Repr

/-- The texts of a declaration in a source. -/
def parts (source : Text) (d : ModuleDecl) : Parts :=
  ⟨d.name, d.parameterBlock? source, d.pinList source, d.body source⟩

/-- The texts of the declarations in a source, in order. -/
def partsIn (source : Text) : List Parts := (ofSource source).map (parts source)

/-- **The declarations among the tokens behind a token** are those of the text behind it. -/
theorem parts_behind {source : Text} {pre post : List Token} {k : Token}
    (h : Token.scan source = pre ++ k :: post) :
    (succeeded (attempts post)).map (parts source) = partsIn (Token.textBehind source k) := by
  obtain ⟨a, hsource, ha, hpost⟩ := Token.scan_behind h
  generalize Token.textBehind source k = b at hsource hpost ⊢
  subst hsource
  rw [hpost, attempts_alike (Token.scanFrom_alike _ b), succeeded_relocate, List.map_map]
  refine List.map_congr_left fun d _ => ?_
  rw [Function.comp, parts, parts, parameterBlock?_behind ha, pinList_behind ha, body_behind ha]
  rfl

/-- The name of a declaration among the last tokens of a list stands behind a keyword among them. -/
theorem nameSpan_ne_of_length_lt {ts taken rest us vs : List Token} {r : DeclRun} {d : ModuleDecl}
    (hp : ts.Pairwise fun a b => a.span.start ≠ b.span.start) (h : ts = taken ++ rest)
    (hr : ts = us ++ (r.tokens ++ vs)) (hlt : us.length < taken.length)
    (hd : d ∈ succeeded (attempts rest)) : d.nameSpan ≠ r.nameSpan := by
  obtain ⟨gap, runs, hrest, hdecls⟩ := exists_woven rest
  rw [hdecls] at hd
  obtain ⟨x, hx, rfl⟩ := List.mem_map.mp hd
  obtain ⟨xs, ys, rfl⟩ := List.append_of_mem hx
  intro hspan
  -- both names are the token behind a keyword of the list
  have hd : ts = (taken ++ gap ++ woven xs ++ [x.1.keyword]) ++ ⟨.identifier x.1.name, x.1.nameSpan⟩ ::
      (parameterTokens x.1.parameters ++ (pinTokens x.1.pins ++ x.1.bodyTokens) ++ x.2 ++
        woven ys) := by
    rw [h, hrest]
    simp [woven, DeclRun.tokens]
  have hr' : ts = (us ++ [r.keyword]) ++ ⟨.identifier r.name, r.nameSpan⟩ ::
      (parameterTokens r.parameters ++ (pinTokens r.pins ++ r.bodyTokens) ++ vs) := by
    rw [hr]
    simp [DeclRun.tokens]
  have hpre := (Token.eq_of_start hp hd hr' (congrArg Span.start hspan)).1
  have hlen := congrArg List.length hpre
  simp only [List.length_append, List.length_singleton] at hlen
  omega

/-- **Reading goes on behind the tokens that a malformed header takes.** Let an attempt stand at a
keyword behind which no header begins. It takes the tokens of its point of failure, and from there
on the declarations are those of the text behind the last of them. So they are those of the text
right behind the keyword when no module keyword was taken. A declaration whose keyword was taken is
lost. -/
theorem ofSource_resumes {source : Text} {before after : List Attempt} {a : Attempt}
    {earlier ts : List Token} {k : Token} (ha : attemptsIn source = before ++ a :: after)
    (hk : Token.scan source = earlier ++ k :: ts) (hka : a.keyword = k.span)
    (hm : ¬ BeginsHeader ts) :
    ∃ taken rest, TakesMalformed taken rest ∧ ts = taken ++ rest ∧
      (succeeded (a :: after)).map (parts source) =
        partsIn (Token.textBehind source (taken.getLastD k)) ∧
      ((∀ t ∈ taken, isModuleKeyword t = false) →
        (succeeded (a :: after)).map (parts source) = partsIn (Token.textBehind source k)) ∧
      ∀ (us vs : List Token) (r : DeclRun), ts = us ++ (r.tokens ++ vs) →
        us.length < taken.length → ∀ d ∈ succeeded (a :: after), d.nameSpan ≠ r.nameSpan := by
  have hp := Token.pairwise_scan source
  obtain ⟨pre, k', post, hts, hkeyword, hresult, hafter⟩ := exists_of_attempts ha
  obtain ⟨rfl, rfl, rfl⟩ := Token.eq_of_start hp hk hts
    (congrArg Span.start (hka.symm.trans hkeyword))
  obtain ⟨taken, htakes, hsplit, e, he⟩ := takesMalformed_read hm
  have hmodules : succeeded (a :: after) = succeeded (attempts (read ts).2) := by
    rw [succeeded_cons, hresult, he, hafter]
    rfl
  rw [hmodules]
  generalize (read ts).2 = rest at htakes hsplit ⊢
  refine ⟨taken, rest, htakes, hsplit, ?_, fun hfree => ?_, fun us vs r hr hlt d hd => ?_⟩
  · rcases List.eq_nil_or_concat taken with rfl | ⟨init, x, rfl⟩
    · rw [List.nil_append] at hsplit
      rw [← hsplit]
      exact parts_behind hk
    · rw [List.concat_eq_append] at hsplit ⊢
      have hx : Token.scan source = (earlier ++ k :: init) ++ x :: rest := by
        rw [hk, hsplit]
        simp
      rw [List.getLastD_concat]
      exact parts_behind hx
  · rw [← parts_behind hk, hsplit, attempts_gap hfree]
  · exact nameSpan_ne_of_length_lt (hp.sublist (hk ▸ List.sublist_append_of_sublist_right
      (List.sublist_cons_self k ts))) hsplit hr hlt hd

/-- The keyword in the place of a name is taken, and its declaration is lost. -/
theorem ofSource_resumes_keyword : ∃ k ts a after,
    attemptsIn "module module a; endmodule".toList = [] ++ a :: after ∧
      Token.scan "module module a; endmodule".toList = [] ++ k :: ts ∧ a.keyword = k.span ∧
      ¬ BeginsHeader ts ∧ ∃ taken rest, TakesMalformed taken rest ∧ ts = taken ++ rest ∧
      (succeeded (a :: after)).map (parts "module module a; endmodule".toList) =
        partsIn (Token.textBehind "module module a; endmodule".toList (taken.getLastD k)) := by
  generalize hsource : "module module a; endmodule".toList = source
  have hk : Token.scan source =
      [] ++ ⟨.keyword .module, ⟨⟨0, 1, 1⟩, ⟨6, 1, 7⟩⟩⟩ ::
        ⟨.keyword .module, ⟨⟨7, 1, 8⟩, ⟨13, 1, 14⟩⟩⟩ :: (Token.scan source).drop 2 := by
    subst hsource
    decide +kernel
  have hm : ¬ BeginsHeader
      (⟨.keyword .module, ⟨⟨7, 1, 8⟩, ⟨13, 1, 14⟩⟩⟩ :: (Token.scan source).drop 2) := by
    rintro ⟨name, s, parameters, pins, semicolon, rest, h⟩
    cases (List.cons.inj h).1
  have ha : attemptsIn source = [] ++ _ :: _ := attemptsIn_of_scan hk rfl
  obtain ⟨taken, rest, htakes, hsplit, hmodules, -⟩ := ofSource_resumes ha hk rfl hm
  exact ⟨_, _, _, _, ha, hk, rfl, hm, taken, rest, htakes, hsplit, hmodules⟩

example : partsIn "module module a; endmodule".toList = [] := by decide +kernel

end ModuleDecl

end DesignAtlas
