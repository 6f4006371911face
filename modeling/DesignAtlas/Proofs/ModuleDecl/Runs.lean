import DesignAtlas.Proofs.ModuleDecl.Append
import DesignAtlas.Proofs.Token.Balanced
import DesignAtlas.Proofs.Token.Between

/-! # Declarations as runs of tokens

A declaration is a run of tokens: a module keyword, a name, perhaps a parameter block, perhaps a pin
list, a semicolon, a body without `endmodule`, and an `endmodule` (`DeclRun`). The parentheses in a
block balance. What an attempt reads is exactly such a run (`read_eq_ok_iff`).

* `ofSource_of_runs`: when the tokens of a source are such runs and, between them, tokens without a
  module keyword, the declarations of the source are those runs, one by one.
* `ofSource_runs`: whatever the tokens of a source are, its declarations are runs in it, one behind
  the other.

Both say of a declaration that its parts are the texts that stand between the tokens of its run
(`DeclRun.Declares`). -/

namespace DesignAtlas

/-! ### Runs -/

/-- Tokens in parentheses: the places of the two, and the balanced tokens between them. -/
structure Token.Group where
  opening : Span
  inner : List Token
  closing : Span
  balanced : Token.Balanced inner

namespace Token.Group

/-- The tokens of the group with its parentheses. -/
def tokens (g : Group) : List Token :=
  ⟨.symbol .openParen, g.opening⟩ :: (g.inner ++ [⟨.symbol .closeParen, g.closing⟩])

/-- What stands between the parentheses. -/
def between (g : Group) : Span := ⟨g.opening.limit, g.closing.start⟩

end Token.Group

/-- The run of tokens of a module declaration. -/
structure DeclRun where
  keyword : Token
  name : String
  nameSpan : Span
  /-- The place of the hash, and the block behind it. -/
  parameters : Option (Span × Token.Group)
  pins : Option Token.Group
  semicolon : Span
  body : List Token
  ending : Span
  announces : ModuleDecl.isModuleKeyword keyword = true
  unended : ∀ t ∈ body, t.payload ≠ .keyword .endmodule

namespace DeclRun

/-- The tokens of an optional parameter block. -/
def parameterTokens (x : Option (Span × Token.Group)) : List Token :=
  x.elim [] fun b => ⟨.symbol .hash, b.1⟩ :: b.2.tokens

/-- The tokens of an optional pin list. -/
def pinTokens (x : Option Token.Group) : List Token := x.elim [] Token.Group.tokens

/-- The tokens from the semicolon to the end. -/
def bodyTokens (r : DeclRun) : List Token :=
  ⟨.symbol .semicolon, r.semicolon⟩ :: (r.body ++ [⟨.keyword .endmodule, r.ending⟩])

/-- All tokens of the run. -/
def tokens (r : DeclRun) : List Token :=
  r.keyword :: ⟨.identifier r.name, r.nameSpan⟩ ::
    (parameterTokens r.parameters ++ (pinTokens r.pins ++ r.bodyTokens))

/-- What stands between the semicolon and the end. -/
def bodySpan (r : DeclRun) : Span := ⟨r.semicolon.limit, r.ending.start⟩

/-- The declaration that the run is. -/
def decl (r : DeclRun) : ModuleDecl where
  name := r.name
  nameSpan := r.nameSpan
  parameterSpan := r.parameters.map fun b => b.2.between
  pinSpan := r.pins.map Token.Group.between
  bodySpan := r.bodySpan

/-- The declaration has the name of the run, at its place, and its parts are the texts that stand in
the source between the tokens of the run. -/
structure Declares (source : Text) (r : DeclRun) (d : ModuleDecl) : Prop where
  name : d.name = r.name
  nameSpan : d.nameSpan = r.nameSpan
  parameters : match r.parameters with
    | none => d.parameterBlock? source = none
    | some b => ∃ t, d.parameterBlock? source = some t ∧ b.2.between.Covers source t
  pins : match r.pins with
    | none => d.pinList source = []
    | some g => g.between.Covers source (d.pinList source)
  body : r.bodySpan.Covers source (d.body source)

end DeclRun

/-! ### Reading a run -/

namespace ModuleDecl

open DeclRun (parameterTokens pinTokens)

variable {name : String} {s : Span} {a b : Option Span} {ts rest : List Token} {d : ModuleDecl}

theorem readBody_eq_ok_iff : readBody name s a b ts = (.ok d, rest) ↔
    ∃ semicolon body ending, (∀ t ∈ body, t.payload ≠ .keyword .endmodule) ∧
      ts = ⟨.symbol .semicolon, semicolon⟩ :: (body ++ ⟨.keyword .endmodule, ending⟩ :: rest) ∧
      d = ⟨name, s, a, b, ⟨semicolon.limit, ending.start⟩⟩ := by
  constructor
  · intro h
    cases ts with
    | nil => cases h
    | cons t ts =>
      rw [readBody_cons] at h
      split_ifs at h with hsemi
      · obtain ⟨p, semicolon⟩ := t
        obtain rfl : p = .symbol .semicolon := hsemi
        have hcut := List.takeWhile_append_dropWhile
          (p := fun t : Token => t.payload != .keyword .endmodule) (l := ts)
        have hfree : ∀ t ∈ ts.takeWhile (fun t => t.payload != .keyword .endmodule),
            t.payload ≠ .keyword .endmodule := fun t ht => by
          simpa using List.mem_takeWhile_imp ht
        cases hd : ts.dropWhile (fun t => t.payload != .keyword .endmodule) with
        | nil => rw [hd] at h; cases h
        | cons e es =>
          have he : e.payload = .keyword .endmodule := by
            have := List.head_dropWhile_not (fun t : Token => t.payload != .keyword .endmodule)
              (l := ts) (by rw [hd]; simp)
            simpa [hd] using this
          rw [hd] at h hcut
          obtain ⟨p, ending⟩ := e
          obtain rfl : p = .keyword .endmodule := he
          cases h
          exact ⟨semicolon, _, ending, hfree, by rw [hcut], rfl⟩
      · cases h
  · rintro ⟨semicolon, body, ending, hfree, rfl, rfl⟩
    rw [readBody_cons, if_pos rfl,
      List.dropWhile_append_of_pos (fun t ht => by simpa using hfree t ht),
      List.dropWhile_cons_of_neg (by simp)]

/-- A group at the front of tokens is found by its opening parenthesis. -/
theorem exists_group {ts : List Token} {e : Token.Enclosed}
    (h : Token.closeParen? 0 ts = some e) (opening : Span) :
    ∃ g : Token.Group, g.opening = opening ∧ g.inner = e.inner ∧ g.closing = e.close.span ∧
      ⟨.symbol .openParen, opening⟩ :: ts = g.tokens ++ e.rest := by
  obtain ⟨hb, hc, rfl⟩ := Token.closeParen?_eq_some_iff.mp h
  have hclose : e.close = ⟨.symbol .closeParen, e.close.span⟩ := by
    rw [← eq_of_beq hc]
  refine ⟨⟨opening, e.inner, e.close.span, hb⟩, rfl, rfl, rfl, ?_⟩
  rw [Token.Group.tokens, ← hclose]
  simp

theorem closeParen?_group (g : Token.Group) (rest : List Token) :
    Token.closeParen? 0 (g.inner ++ ⟨.symbol .closeParen, g.closing⟩ :: rest) =
      some ⟨g.inner, ⟨.symbol .closeParen, g.closing⟩, rest⟩ :=
  Token.closeParen?_eq_some_iff.mpr ⟨g.balanced, rfl, rfl⟩

theorem readPins_eq_ok_iff : readPins name s a ts = (.ok d, rest) ↔
    ∃ pins us, ts = pinTokens pins ++ us ∧
      readBody name s a (pins.map Token.Group.between) us = (.ok d, rest) := by
  constructor
  · intro h
    cases ts with
    | nil => cases h
    | cons t ts =>
      rw [readPins_cons] at h
      split_ifs at h with hopen
      · obtain ⟨p, opening⟩ := t
        obtain rfl : p = .symbol .openParen := hopen
        cases hc : Token.closeParen? 0 ts with
        | none => rw [hc] at h; cases h
        | some e =>
          rw [hc] at h
          obtain ⟨g, rfl, -, hclosing, hts⟩ := exists_group hc opening
          refine ⟨some g, e.rest, hts, ?_⟩
          rw [Option.map_some, Token.Group.between, hclosing]
          exact h
      · exact ⟨none, t :: ts, rfl, h⟩
  · rintro ⟨pins, us, rfl, h⟩
    cases pins with
    | some g =>
      rw [pinTokens, Option.elim_some, Token.Group.tokens, List.cons_append, readPins_cons,
        if_pos rfl, List.append_assoc, List.singleton_append, closeParen?_group]
      exact h
    | none =>
      -- what a body begins with is no parenthesis
      obtain ⟨semicolon, body, ending, -, hus, -⟩ := readBody_eq_ok_iff.mp h
      rw [pinTokens, Option.elim_none, List.nil_append, hus, readPins_cons, if_neg (by simp), ← hus]
      exact h

theorem readParameters_eq_ok_iff : readParameters name s ts = (.ok d, rest) ↔
    ∃ parameters us, ts = parameterTokens parameters ++ us ∧
      readPins name s (parameters.map fun b => b.2.between) us = (.ok d, rest) := by
  constructor
  · intro h
    cases ts with
    | nil => cases h
    | cons t ts =>
      rw [readParameters_cons] at h
      split_ifs at h with hhash
      · obtain ⟨p, hash⟩ := t
        obtain rfl : p = .symbol .hash := hhash
        cases ts with
        | nil => cases h
        | cons u us =>
          simp only at h
          split_ifs at h with hopen
          · obtain ⟨p, opening⟩ := u
            obtain rfl : p = .symbol .openParen := hopen
            cases hc : Token.closeParen? 0 us with
            | none => rw [hc] at h; cases h
            | some e =>
              rw [hc] at h
              obtain ⟨g, rfl, -, hclosing, hts⟩ := exists_group hc opening
              refine ⟨some (hash, g), e.rest, by rw [hts]; rfl, ?_⟩
              rw [Option.map_some, Token.Group.between, hclosing]
              exact h
          · cases h
      · exact ⟨none, t :: ts, rfl, h⟩
  · rintro ⟨parameters, us, rfl, h⟩
    cases parameters with
    | some b =>
      rw [parameterTokens, Option.elim_some, List.cons_append, readParameters_cons, if_pos rfl,
        Token.Group.tokens, List.cons_append, List.append_assoc, List.singleton_append]
      simp only [↓reduceIte, closeParen?_group]
      exact h
    | none =>
      cases us with
      | nil => cases h
      | cons u us =>
        have hhash : u.payload ≠ .symbol .hash := by
          intro hu
          rw [readPins_cons, hu, if_neg (by simp), readBody_cons, hu, if_neg (by simp)] at h
          cases h
        rw [parameterTokens, Option.elim_none, List.nil_append, readParameters_cons, if_neg hhash]
        exact h

theorem exists_identifier_of_read_ok (h : read ts = (.ok d, rest)) : ∃ name s us,
    ts = ⟨.identifier name, s⟩ :: us ∧ readParameters name s us = (.ok d, rest) := by
  cases ts with
  | nil => cases h
  | cons t ts =>
    by_cases hid : ∃ n, t.payload = .identifier n
    · obtain ⟨n, hn⟩ := hid
      rw [read_cons_identifier n t ts hn] at h
      exact ⟨n, t.span, ts, by rw [← hn], h⟩
    · rw [read_cons_other t ts fun n hn => hid ⟨n, hn⟩] at h
      cases h

/-- **An attempt behind a keyword succeeds exactly on a run.** -/
theorem read_eq_ok_iff {k : Token} (hk : isModuleKeyword k = true) :
    read ts = (.ok d, rest) ↔
      ∃ r : DeclRun, r.keyword = k ∧ k :: ts = r.tokens ++ rest ∧ r.decl = d := by
  constructor
  · intro h
    obtain ⟨name, s, us, rfl, hparameters⟩ := exists_identifier_of_read_ok h
    obtain ⟨parameters, vs, rfl, hpins⟩ := readParameters_eq_ok_iff.mp hparameters
    obtain ⟨pins, ws, rfl, hbody⟩ := readPins_eq_ok_iff.mp hpins
    obtain ⟨semicolon, body, ending, hfree, rfl, rfl⟩ := readBody_eq_ok_iff.mp hbody
    refine ⟨⟨k, name, s, parameters, pins, semicolon, body, ending, hk, hfree⟩, rfl, ?_, rfl⟩
    simp [DeclRun.tokens, DeclRun.bodyTokens]
  · rintro ⟨r, rfl, hts, rfl⟩
    obtain rfl : ts = ⟨.identifier r.name, r.nameSpan⟩ ::
        (parameterTokens r.parameters ++ (pinTokens r.pins ++ (r.bodyTokens ++ rest))) := by
      simpa [DeclRun.tokens] using hts
    have hbody : ∀ a b, readBody r.name r.nameSpan a b (r.bodyTokens ++ rest) =
        (.ok ⟨r.name, r.nameSpan, a, b, r.bodySpan⟩, rest) := fun a b =>
      readBody_eq_ok_iff.mpr ⟨r.semicolon, r.body, r.ending, r.unended,
        by simp [DeclRun.bodyTokens], rfl⟩
    rw [read_cons_identifier r.name _ _ rfl]
    exact readParameters_eq_ok_iff.mpr ⟨r.parameters, _, rfl,
      readPins_eq_ok_iff.mpr ⟨r.pins, _, rfl, hbody _ _⟩⟩

/-! ### The attempts among runs -/

theorem attempts_gap : ∀ {gap : List Token}, (∀ t ∈ gap, isModuleKeyword t = false) →
    ∀ ts, attempts (gap ++ ts) = attempts ts
  | [], _, _ => rfl
  | t :: gap, h, ts => by
    rw [List.cons_append, attempts_cons, h t (by simp), if_neg Bool.false_ne_true,
      attempts_gap (fun u hu => h u (by simp [hu])) ts]

theorem attempts_run (r : DeclRun) (ts : List Token) :
    attempts (r.tokens ++ ts) = ⟨r.keyword.span, .ok r.decl⟩ :: attempts ts := by
  obtain ⟨us, hus⟩ : ∃ us, r.tokens ++ ts = r.keyword :: us := ⟨_, rfl⟩
  have hread : read us = (.ok r.decl, ts) :=
    (read_eq_ok_iff r.announces).mpr ⟨r, rfl, hus.symm, rfl⟩
  rw [hus, attempts_cons, if_pos r.announces, hread]

/-- Runs, each with the tokens behind it. -/
def woven (parts : List (DeclRun × List Token)) : List Token :=
  parts.flatMap fun x => x.1.tokens ++ x.2

theorem woven_cons (x : DeclRun × List Token) (parts : List (DeclRun × List Token)) :
    woven (x :: parts) = x.1.tokens ++ (x.2 ++ woven parts) := by
  simp [woven]

theorem succeeded_woven : ∀ {parts : List (DeclRun × List Token)},
    (∀ x ∈ parts, ∀ t ∈ x.2, isModuleKeyword t = false) →
      succeeded (attempts (woven parts)) = parts.map fun x => x.1.decl
  | [], _ => by simp [woven, attempts, succeeded]
  | x :: parts, h => by
    rw [woven_cons, attempts_run, attempts_gap (h x (by simp)), succeeded_cons,
      succeeded_woven fun y hy => h y (List.mem_cons_of_mem x hy)]
    rfl

/-- **All declarations of some tokens are runs in them**, one behind the other. -/
theorem exists_woven (ts : List Token) : ∃ gap parts, ts = gap ++ woven parts ∧
    succeeded (attempts ts) = parts.map fun x => x.1.decl := by
  -- the recursion of `attempts`: what a failed attempt took belongs to the gap
  induction ts using attempts.induct with
  | case1 => exact ⟨[], [], rfl, by simp [attempts, succeeded]⟩
  | case2 t ts hk ih =>
    obtain ⟨gap, parts, hrest, hdecls⟩ := ih
    rw [attempts_cons, if_pos hk, succeeded_cons, hdecls]
    cases hr : (read ts).1 with
    | ok d =>
      have hok : read ts = (.ok d, (read ts).2) := Prod.ext hr rfl
      obtain ⟨r, rfl, hts, rfl⟩ := (read_eq_ok_iff hk).mp hok
      refine ⟨[], (r, gap) :: parts, ?_, rfl⟩
      rw [hts, hrest, woven_cons, List.nil_append]
    | error e =>
      obtain ⟨pre, hpre⟩ := (takes_read ts).1
      refine ⟨t :: (pre ++ gap), parts, ?_, rfl⟩
      rw [List.cons_append, List.append_assoc, ← hrest, hpre]
  | case3 t ts hk ih =>
    obtain ⟨gap, parts, rfl, hdecls⟩ := ih
    refine ⟨t :: gap, parts, rfl, ?_⟩
    rw [attempts_cons, if_neg hk, hdecls]

end ModuleDecl

/-! ### The parts of a declaration -/

namespace DeclRun

theorem bodyTokens_infix (r : DeclRun) : r.bodyTokens <:+: r.tokens :=
  ⟨r.keyword :: ⟨.identifier r.name, r.nameSpan⟩ :: (parameterTokens r.parameters ++
    pinTokens r.pins), [], by simp [tokens]⟩

theorem pinTokens_infix (r : DeclRun) : pinTokens r.pins <:+: r.tokens :=
  ⟨r.keyword :: ⟨.identifier r.name, r.nameSpan⟩ :: parameterTokens r.parameters,
    r.bodyTokens, by simp [tokens]⟩

theorem parameterTokens_infix (r : DeclRun) : parameterTokens r.parameters <:+: r.tokens :=
  ⟨[r.keyword, ⟨.identifier r.name, r.nameSpan⟩], pinTokens r.pins ++ r.bodyTokens,
    by simp [tokens]⟩

/-- The parentheses of a group in a text have a text between them. -/
theorem covers_group {source : Text} {g : Token.Group} (h : g.tokens <:+: Token.scan source) :
    g.between.Covers source (g.between.slice source) := by
  obtain ⟨t, ht⟩ := Token.covers_between h
  have : g.between.Covers source t := ht
  rwa [this.slice_eq]

/-- **A run of tokens in a source** declares what stands between its tokens. -/
theorem declares_decl {source : Text} {r : DeclRun} (h : r.tokens <:+: Token.scan source) :
    Declares source r r.decl where
  name := rfl
  nameSpan := rfl
  parameters := by
    have hparameters := r.parameterTokens_infix.trans h
    unfold ModuleDecl.parameterBlock? decl
    cases hb : r.parameters with
    | none => rfl
    | some b =>
      rw [hb] at hparameters
      exact ⟨_, rfl, covers_group ((List.suffix_cons _ _).isInfix.trans hparameters)⟩
  pins := by
    have hpins := r.pinTokens_infix.trans h
    unfold ModuleDecl.pinList decl
    cases hg : r.pins with
    | none => rfl
    | some g =>
      rw [hg] at hpins
      exact covers_group hpins
  body := by
    obtain ⟨t, ht⟩ := Token.covers_between (r.bodyTokens_infix.trans h)
    have hbody : r.bodySpan.Covers source t := ht
    have hslice : r.decl.body source = t := hbody.slice_eq
    rwa [hslice]

end DeclRun

namespace ModuleDecl

open List (Forall₂)

/-- Every declaration of a source is a run of tokens in it. -/
theorem exists_run {source : Text} {d : ModuleDecl} (h : d ∈ ofSource source) :
    ∃ r : DeclRun, r.tokens <:+: Token.scan source ∧ r.decl = d := by
  obtain ⟨gap, parts, hscan, hdecls⟩ := exists_woven (Token.scan source)
  rw [ofSource, attemptsIn, hdecls] at h
  obtain ⟨⟨r, behind⟩, hr, rfl⟩ := List.mem_map.mp h
  obtain ⟨xs, ys, rfl⟩ := List.append_of_mem hr
  exact ⟨r, ⟨gap ++ woven xs, behind ++ woven ys, by rw [hscan]; simp [woven]⟩, rfl⟩

theorem forall₂_declares {source : Text} {gap : List Token} {parts : List (DeclRun × List Token)}
    (h : Token.scan source = gap ++ woven parts)
    (hdecls : ofSource source = parts.map fun x => x.1.decl) :
    Forall₂ (DeclRun.Declares source) (parts.map Prod.fst) (ofSource source) := by
  rw [hdecls, List.forall₂_map_left_iff, List.forall₂_map_right_iff, List.forall₂_same]
  intro x hx
  apply DeclRun.declares_decl
  obtain ⟨xs, ys, rfl⟩ := List.append_of_mem hx
  exact ⟨gap ++ woven xs, x.2 ++ woven ys, by rw [h]; simp [woven]⟩

/-- **Every well-formed declaration is found.** The tokens of the source are runs of declarations
and, before, between and behind them, tokens without a module keyword. Then the declarations of the
source are exactly those runs, in order. -/
theorem ofSource_of_runs {source : Text} {gap : List Token} {parts : List (DeclRun × List Token)}
    (hgap : ∀ t ∈ gap, isModuleKeyword t = false)
    (hparts : ∀ x ∈ parts, ∀ t ∈ x.2, isModuleKeyword t = false)
    (h : Token.scan source = gap ++ woven parts) :
    Forall₂ (DeclRun.Declares source) (parts.map Prod.fst) (ofSource source) := by
  refine forall₂_declares h ?_
  rw [ofSource, attemptsIn, h, attempts_gap hgap, succeeded_woven hparts]

/-- A name that is escaped, nested parentheses, a module keyword in a body, and a declaration
without parameters and pins. -/
theorem ofSource_of_runs_pair :
    let source : Text :=
      "x macromodule \\m+ #(P=(1)) (a); module k; endmodule ; module n; endmodule".toList
    let cols : Nat → Nat → Span := fun i j => ⟨⟨i, 1, i + 1⟩, ⟨j, 1, j + 1⟩⟩
    let first : DeclRun :=
      { keyword := ⟨.keyword .macromodule, cols 2 13⟩
        name := "m+"
        nameSpan := cols 14 18
        parameters := some (cols 18 19, ⟨cols 19 20, [⟨.identifier "P", cols 20 21⟩,
          ⟨.symbol .equals, cols 21 22⟩, ⟨.symbol .openParen, cols 22 23⟩, ⟨.number "1", cols 23 24⟩,
          ⟨.symbol .closeParen, cols 24 25⟩], cols 25 26, by decide⟩)
        pins := some ⟨cols 27 28, [⟨.identifier "a", cols 28 29⟩], cols 29 30, by decide⟩
        semicolon := cols 30 31
        body := [⟨.keyword .module, cols 32 38⟩, ⟨.identifier "k", cols 39 40⟩,
          ⟨.symbol .semicolon, cols 40 41⟩]
        ending := cols 42 51
        announces := by decide
        unended := by decide }
    let second : DeclRun :=
      { keyword := ⟨.keyword .module, cols 54 60⟩
        name := "n"
        nameSpan := cols 61 62
        parameters := none
        pins := none
        semicolon := cols 62 63
        body := []
        ending := cols 64 73
        announces := by decide
        unended := by decide }
    let gap : List Token := [⟨.identifier "x", cols 0 1⟩]
    let parts := [(first, [⟨.symbol .semicolon, cols 52 53⟩]), (second, [])]
    (∀ t ∈ gap, isModuleKeyword t = false) ∧
    (∀ x ∈ parts, ∀ t ∈ x.2, isModuleKeyword t = false) ∧
    Token.scan source = gap ++ woven parts ∧
    Forall₂ (DeclRun.Declares source) [first, second] (ofSource source) := by
  intro source cols first second gap parts
  have hgap : ∀ t ∈ gap, isModuleKeyword t = false := by decide
  have hparts : ∀ x ∈ parts, ∀ t ∈ x.2, isModuleKeyword t = false := by decide
  have hscan : Token.scan source = gap ++ woven parts := by decide +kernel
  exact ⟨hgap, hparts, hscan, ofSource_of_runs hgap hparts hscan⟩

/-- **Only well-formed declarations are found.** Whatever the source is, its declarations are, in
order, runs of tokens in it of which none shares a token with another. -/
theorem ofSource_runs (source : Text) : ∃ gap parts, Token.scan source = gap ++ woven parts ∧
    Forall₂ (DeclRun.Declares source) (parts.map Prod.fst) (ofSource source) := by
  obtain ⟨gap, parts, h, hdecls⟩ := exists_woven (Token.scan source)
  exact ⟨gap, parts, h, forall₂_declares h hdecls⟩

end ModuleDecl

end DesignAtlas
