import DesignAtlas.Proofs.ModuleDecl.Relocate

/-! # Declarations of two token lists one after the other

An attempt that has found its `endmodule`, or has failed before the end of the tokens, does not feel
tokens added at the end (`read_append`). When the last declaration of a list ends with the last
token, every attempt in the list is of this kind, so the attempts of a longer list are those of the
list and those of what follows it (`attempts_append`). -/

namespace DesignAtlas.ModuleDecl

variable {ts us : List Token}

/-- The outcome is a declaration, or tokens are left. -/
def Decided (x : Outcome) : Prop := (∃ d, x.1 = .ok d) ∨ x.2 ≠ []

theorem not_decided_error (e : DeclError) : ¬ Decided (.error e, []) := by
  rintro (⟨d, hd⟩ | h)
  · cases hd
  · exact h rfl

/-- The outcome with more tokens left. -/
def Outcome.extend (x : Outcome) (us : List Token) : Outcome := (x.1, x.2 ++ us)

/-! ### One reader after the other -/

theorem closeParen?_append_right : ∀ {ts : List Token} {depth : Nat} {e : Token.Enclosed},
    Token.closeParen? depth ts = some e → ∀ us,
      Token.closeParen? depth (ts ++ us) = some { e with rest := e.rest ++ us }
  | t :: ts, depth, e, h, us => by
    have hdeep : ∀ d, (Token.closeParen? d ts).map (.cons t) = some e →
        (Token.closeParen? d (ts ++ us)).map (.cons t) = some { e with rest := e.rest ++ us } := by
      intro d hd
      obtain ⟨e', he', rfl⟩ := Option.map_eq_some_iff.mp hd
      rw [closeParen?_append_right he' us]
      rfl
    unfold Token.closeParen? at h
    rw [List.cons_append]
    unfold Token.closeParen?
    split_ifs at h ⊢
    · rcases depth with _ | d
      · simp only [Option.some.injEq] at h ⊢
        rw [← h]
      · exact hdeep d h
    · exact hdeep _ h
    · exact hdeep _ h

theorem readBody_append {name : String} {s : Span} {a b : Option Span}
    (h : Decided (readBody name s a b ts)) (us : List Token) :
    readBody name s a b (ts ++ us) = (readBody name s a b ts).extend us := by
  rcases ts with _ | ⟨t, ts⟩
  · exact absurd h (not_decided_error _)
  rw [List.cons_append, readBody_cons]
  rw [readBody_cons] at h ⊢
  split_ifs at h ⊢
  · rcases hd : ts.dropWhile (fun t => t.payload != .keyword .endmodule) with _ | ⟨e, rest⟩
    · rw [hd] at h; exact absurd h (not_decided_error _)
    · rw [List.dropWhile_append, if_neg (by simp [hd]), hd]
      rfl
  · rfl

theorem readPins_append {name : String} {s : Span} {a : Option Span}
    (h : Decided (readPins name s a ts)) (us : List Token) :
    readPins name s a (ts ++ us) = (readPins name s a ts).extend us := by
  rcases ts with _ | ⟨t, ts⟩
  · exact absurd h (not_decided_error _)
  rw [List.cons_append, readPins_cons]
  rw [readPins_cons] at h ⊢
  split_ifs at h ⊢
  · rcases hc : Token.closeParen? 0 ts with _ | e
    · rw [hc] at h; exact absurd h (not_decided_error _)
    · rw [hc] at h
      rw [closeParen?_append_right hc]
      exact readBody_append h us
  · exact readBody_append h us

theorem readParameters_append {name : String} {s : Span}
    (h : Decided (readParameters name s ts)) (us : List Token) :
    readParameters name s (ts ++ us) = (readParameters name s ts).extend us := by
  rcases ts with _ | ⟨t, ts⟩
  · exact absurd h (not_decided_error _)
  rw [List.cons_append, readParameters_cons]
  rw [readParameters_cons] at h ⊢
  split_ifs at h ⊢
  · rcases ts with _ | ⟨u, ts⟩
    · exact absurd h (not_decided_error _)
    simp only [List.cons_append] at h ⊢
    split_ifs at h ⊢
    · rcases hc : Token.closeParen? 0 ts with _ | e
      · rw [hc] at h; exact absurd h (not_decided_error _)
      · rw [hc] at h
        rw [closeParen?_append_right hc]
        exact readPins_append h us
    · rfl
  · exact readPins_append h us

/-- **A decided attempt does not feel what follows.** -/
theorem read_append (h : Decided (read ts)) (us : List Token) :
    read (ts ++ us) = (read ts).extend us := by
  rcases ts with _ | ⟨t, ts⟩
  · exact absurd h (not_decided_error _)
  rw [List.cons_append]
  by_cases hid : ∃ n, t.payload = .identifier n
  · obtain ⟨n, hn⟩ := hid
    rw [read_cons_identifier n t _ hn] at h ⊢
    rw [read_cons_identifier n t _ hn]
    exact readParameters_append h us
  · have hid' : ∀ n, t.payload ≠ .identifier n := fun n hn => hid ⟨n, hn⟩
    rw [read_cons_other t _ hid', read_cons_other t _ hid']
    rfl

/-! ### The tokens that an attempt takes -/

/-- The tokens left are the end of the tokens, and before them stands the token that ends the
declaration, if there is one. -/
def Takes (ts : List Token) (x : Outcome) : Prop :=
  x.2 <:+ ts ∧ ∀ d, x.1 = .ok d → ∃ e pre, ts = pre ++ e :: x.2 ∧ d.bodySpan.limit = e.span.start

theorem Takes.of_suffix {x : Outcome} (h : Takes ts x) (hs : ts <:+ us) : Takes us x := by
  refine ⟨h.1.trans hs, fun d hd => ?_⟩
  obtain ⟨e, pre, rfl, he⟩ := h.2 d hd
  obtain ⟨pre', rfl⟩ := hs
  exact ⟨e, pre' ++ pre, by simp, he⟩

theorem takes_error (e : DeclError) (h : us <:+ ts) : Takes ts (.error e, us) :=
  ⟨h, fun _ hd => by cases hd⟩

theorem rest_suffix {depth : Nat} {e : Token.Enclosed} (h : Token.closeParen? depth ts = some e) :
    e.rest <:+ ts := by
  rw [← Token.closeParen?_append h]
  exact ⟨e.inner ++ [e.close], by simp⟩

theorem takes_readBody (name : String) (s : Span) (a b : Option Span) (ts : List Token) :
    Takes ts (readBody name s a b ts) := by
  rcases ts with _ | ⟨t, ts⟩
  · exact takes_error _ (List.suffix_refl _)
  rw [readBody_cons]
  split_ifs
  · have hs := List.dropWhile_suffix (l := ts) (fun t => t.payload != .keyword .endmodule)
    generalize ts.dropWhile (fun t => t.payload != .keyword .endmodule) = us at hs
    obtain ⟨pre, rfl⟩ := hs
    rcases us with _ | ⟨e, rest⟩
    · exact takes_error _ List.nil_suffix
    · refine ⟨⟨t :: (pre ++ [e]), by simp⟩, fun d hd => ⟨e, t :: pre, by simp, ?_⟩⟩
      cases hd; rfl
  · exact takes_error _ (List.suffix_refl _)

theorem takes_readPins (name : String) (s : Span) (a : Option Span) (ts : List Token) :
    Takes ts (readPins name s a ts) := by
  rcases ts with _ | ⟨t, ts⟩
  · exact takes_error _ List.nil_suffix
  rw [readPins_cons]
  split_ifs
  · rcases hc : Token.closeParen? 0 ts with _ | e
    · exact takes_error _ List.nil_suffix
    · exact (takes_readBody ..).of_suffix ((rest_suffix hc).trans (List.suffix_cons t ts))
  · exact takes_readBody ..

theorem takes_readParameters (name : String) (s : Span) (ts : List Token) :
    Takes ts (readParameters name s ts) := by
  rcases ts with _ | ⟨t, ts⟩
  · exact takes_error _ List.nil_suffix
  rw [readParameters_cons]
  split_ifs
  · rcases ts with _ | ⟨u, ts⟩
    · exact takes_error _ List.nil_suffix
    simp only
    split_ifs
    · rcases hc : Token.closeParen? 0 ts with _ | e
      · exact takes_error _ List.nil_suffix
      · exact (takes_readPins ..).of_suffix ((rest_suffix hc).trans
          ((List.suffix_cons u ts).trans (List.suffix_cons t _)))
    · exact takes_error _ (List.suffix_cons t _)
  · exact takes_readPins ..

theorem takes_read (ts : List Token) : Takes ts (read ts) := by
  rcases ts with _ | ⟨t, ts⟩
  · exact takes_error _ (List.suffix_refl _)
  by_cases hid : ∃ n, t.payload = .identifier n
  · obtain ⟨n, hn⟩ := hid
    rw [read_cons_identifier n t ts hn]
    exact (takes_readParameters ..).of_suffix (List.suffix_cons t ts)
  · rw [read_cons_other t ts fun n hn => hid ⟨n, hn⟩]
    exact takes_error _ (List.suffix_cons t ts)

/-! ### The attempts of both lists -/

theorem getLast?_of_suffix {α : Type} {l l' : List α} (h : l <:+ l') (hne : l ≠ []) :
    l.getLast? = l'.getLast? := by
  obtain ⟨pre, rfl⟩ := h
  rw [List.getLast?_append_of_ne_nil _ hne]

theorem succeeded_cons (a : Attempt) (as : List Attempt) :
    succeeded (a :: as) = a.result.toOption.toList ++ succeeded as := by
  unfold succeeded
  rw [List.filterMap_cons]
  cases a.result.toOption <;> rfl

/-- A declaration does not end where a token that it leaves behind begins. -/
theorem limit_ne_of_mem_rest {ts : List Token} {d : ModuleDecl} {tok : Token}
    (hstart : ts.Pairwise fun a b => a.span.start ≠ b.span.start)
    (hd : (read ts).1 = .ok d) (htok : tok ∈ (read ts).2) :
    d.bodySpan.limit ≠ tok.span.start := by
  obtain ⟨e, pre, hts, he⟩ := (takes_read ts).2 d hd
  rw [hts] at hstart
  rw [he]
  exact List.rel_of_pairwise_cons (List.pairwise_append.mp hstart).2.1 htok

/-- **Attempts in two lists.** The last declaration of the first list ends with its last token, and
no other token begins where that one does. -/
theorem attempts_append {ts : List Token} {d : ModuleDecl} {tok : Token}
    (hstart : ts.Pairwise fun a b => a.span.start ≠ b.span.start)
    (htok : ts.getLast? = some tok) (hd : (succeeded (attempts ts)).getLast? = some d)
    (hend : d.bodySpan.limit = tok.span.start) (us : List Token) :
    attempts (ts ++ us) = attempts ts ++ attempts us := by
  induction ts using attempts.induct with
  | case1 => cases htok
  | case2 t ts hk ih =>
    rw [attempts_cons, if_pos hk, succeeded_cons] at hd
    have hsuf := (takes_read ts).1
    have hdecided : Decided (read ts) := by
      by_cases hr : (read ts).2 = []
      · rw [hr] at hd
        rcases hres : (read ts).1 with e | d'
        · rw [hres] at hd; simp [attempts, succeeded, Except.toOption] at hd
        · exact Or.inl ⟨d', hres⟩
      · exact Or.inr hr
    have hrest : attempts ((read ts).2 ++ us) = attempts (read ts).2 ++ attempts us := by
      by_cases hr : (read ts).2 = []
      · rw [hr]; simp [attempts]
      have hlast : (read ts).2.getLast? = some tok := by
        rw [getLast?_of_suffix (hsuf.trans (List.suffix_cons t ts)) hr, htok]
      have hpair := hstart.sublist (hsuf.trans (List.suffix_cons t ts)).sublist
      by_cases hs : succeeded (attempts (read ts).2) = []
      · -- the last declaration would end before the last token
        rw [hs, List.append_nil] at hd
        rcases hres : (read ts).1 with e | d'
        · rw [hres] at hd; cases hd
        rw [hres] at hd
        obtain rfl : d' = d := by simpa [Except.toOption] using hd
        exact absurd hend (limit_ne_of_mem_rest (List.pairwise_cons.mp hstart).2 hres
          (List.mem_of_getLast? hlast))
      · rw [List.getLast?_append_of_ne_nil _ hs] at hd
        exact ih hpair hlast hd
    rw [List.cons_append, attempts_cons, if_pos hk, read_append hdecided, attempts_cons,
      if_pos hk, List.cons_append]
    unfold Outcome.extend
    rw [hrest]
  | case3 t ts hk ih =>
    rw [attempts_cons, if_neg hk] at hd
    rw [List.cons_append, attempts_cons, if_neg hk, attempts_cons, if_neg hk]
    have hne : ts ≠ [] := by rintro rfl; simp [attempts, succeeded] at hd
    refine ih (List.pairwise_cons.mp hstart).2 ?_ hd
    rw [getLast?_of_suffix (List.suffix_cons t ts) hne, htok]

end DesignAtlas.ModuleDecl
