import DesignAtlas.Proofs.Condition.Nested
import DesignAtlas.Proofs.Statement.Conditions
import DesignAtlas.Proofs.Statement.Pieces

/-! # Bodies that are joined

A semicolon ends the statement under way, so what a reader keeps across it is only which conditions
and how many tasks and functions are open. Two bodies with a semicolon between them are therefore
read one after the other (`Statement.ofBody_semicolon`), and the second as if it stood alone when
nothing is open behind the first (`Statement.ofBody_join`). But the semicolon stands in the last
line of the first body, and a directive word there would take it and what follows it out of the
code. -/

namespace DesignAtlas

open Text (split)

/-! ### The pieces of both bodies -/

namespace Piece

open Directive (Free free_iff)

/-- A semicolon behind a line without directive words makes two lines of it. -/
theorem ofLine_semicolon {l : Text} (h : Free l) (m : Text) :
    ofLine (l ++ ';' :: m) = l.map .char ++ .char ';' :: ofLine m := by
  have hnone : (Directive.cut l).2 = none := by rw [free_iff.mp h]
  rw [ofLine, Directive.cut_append_cons (by decide) (by decide) m hnone]
  simp [ofLine]

/-- **Bodies with a semicolon between them** are read as by themselves, but for the newline at the
end of the first. -/
theorem exists_ofBody_semicolon {a : Text} (h : ∀ l ∈ (Text.lines a).getLast?, Free l) :
    ∃ qs, ofBody a = qs ++ [.char '\n'] ∧
      ∀ b, ofBody (a ++ ';' :: b) = qs ++ .char ';' :: ofBody b := by
  obtain ⟨ls, l, hl⟩ := Text.exists_split_eq_concat (· == '\n') a
  have hfree : Free l := h l (by rw [Text.lines, hl, List.getLast?_concat]; rfl)
  refine ⟨ls.flatMap ofLine ++ l.map .char, ?_, fun b => ?_⟩
  · rw [ofBody, Text.lines, hl, List.flatMap_append, List.flatMap_singleton, ofLine,
      free_iff.mp hfree, List.append_assoc]
    rfl
  · obtain ⟨m, ms, hm⟩ := List.exists_cons_of_ne_nil (Text.split_ne_nil (· == '\n') b)
    have hb : split (· == '\n') (';' :: b) = (';' :: m) :: ms := by
      rw [Text.split_cons, hm]
      rfl
    -- the last line of one body and the first line of the other are one line
    rw [ofBody, ofBody, Text.lines, Text.lines, Text.split_append hb hl, hm, List.flatMap_append,
      List.flatMap_cons, List.flatMap_cons, ofLine_semicolon hfree]
    simp

end Piece

/-! ### The fragments of both bodies -/

namespace Fragment

/-- **A semicolon ends the fragment under way** where the end of the body would, and only the stack
is kept across it. -/
theorem exists_ofPieces_semicolon : ∀ (qs : List Piece) (s : ConditionStack)
    (begun : Option (List String)) (read : Text), ∃ fs t cs,
      ofPieces s begun read (qs ++ [.char '\n']) = fs ++ [⟨t ++ ['\n'], cs⟩] ∧
        ∀ rs, ofPieces s begun read (qs ++ .char ';' :: rs) = fs ++ ⟨t, cs⟩ ::
          ofPieces ((qs.filterMap Piece.directive?).foldl ConditionStack.advance s) none [] rs
  | [], s, begun, read => by
    refine ⟨[], read.reverse, begun.getD s.snapshot, ?_, fun rs => ?_⟩
    · simp [ofPieces, isBlank_newline]
    · simp [ofPieces]
  | .directive d :: qs, s, begun, read => exists_ofPieces_semicolon qs (s.advance d) begun read
  | .char c :: qs, s, begun, read => by
    by_cases hc : c = ';'
    · obtain ⟨fs, t, cs, hend, hcut⟩ := exists_ofPieces_semicolon qs s none []
      have hread : ∀ ps, ofPieces s begun read (.char c :: ps) =
          ⟨read.reverse, begun.getD s.snapshot⟩ :: ofPieces s none [] ps := fun ps => by
        rw [ofPieces, if_pos hc]
      refine ⟨⟨read.reverse, begun.getD s.snapshot⟩ :: fs, t, cs, ?_, fun rs => ?_⟩
      · rw [List.cons_append, hread, hend, List.cons_append]
      · rw [List.cons_append, hread, hcut, List.cons_append]
        rfl
    · obtain ⟨begun', hread⟩ := exists_ofPieces_char hc s begun read
      obtain ⟨fs, t, cs, hend, hcut⟩ := exists_ofPieces_semicolon qs s begun' (c :: read)
      refine ⟨fs, t, cs, ?_, fun rs => ?_⟩
      · rw [List.cons_append, hread, hend]
      · rw [List.cons_append, hread, hcut]
        rfl

end Fragment

namespace Statement

variable {o : Options} {a : Text}

/-! ### What is open behind a body -/

/-- How many tasks and functions are open behind a body, once all of its statements are read. -/
def subprogramsBehind (o : Options) (a : Text) : Nat :=
  (Fragment.ofPieces (ConditionStack.empty o.elsePolicy) none [] (Piece.ofBody a)).foldl
    depthBehind 0

/-- Behind a body that leaves no condition open, the stack is as it was before it. -/
theorem foldl_advance_of_openBehind (h : openBehind o a = []) :
    (applied a).foldl ConditionStack.advance (ConditionStack.empty o.elsePolicy) =
      ConditionStack.empty o.elsePolicy := by
  have hempty := ConditionStack.eq_empty_of_snapshot h
  rwa [ConditionStack.policy_foldl_advance] at hempty

/-! ### The statements of both bodies -/

theorem ofFragment_newline (depth : Nat) (t : Text) (cs : List String) :
    ofFragment depth ⟨t ++ ['\n'], cs⟩ = ofFragment depth ⟨t, cs⟩ := by
  rw [ofFragment, ofFragment, Text.trim_append_of_blank blank_newline]

theorem depthBehind_newline (depth : Nat) (t : Text) (cs : List String) :
    depthBehind depth ⟨t ++ ['\n'], cs⟩ = depthBehind depth ⟨t, cs⟩ := by
  rw [depthBehind, depthBehind, Text.trim_append_of_blank blank_newline]

theorem applied_semicolon (h : ∀ l ∈ (Text.lines a).getLast?, Directive.Free l) (b : Text) :
    applied (a ++ ';' :: b) = applied a ++ applied b := by
  obtain ⟨qs, ha, hjoin⟩ := Piece.exists_ofBody_semicolon h
  unfold applied
  rw [hjoin, ha, List.filterMap_append, List.filterMap_append]
  exact congrArg (· ++ _) (List.append_nil _).symm

/-- **The statements of two bodies with a semicolon between them**: those of the first, and those of
the second under what the first leaves open. -/
theorem ofBody_semicolon (h : ∀ l ∈ (Text.lines a).getLast?, Directive.Free l) (b : Text) :
    ofBody o (a ++ ';' :: b) = ofBody o a ++ ofFragments (subprogramsBehind o a)
      (Fragment.ofPieces ((applied a).foldl ConditionStack.advance
        (ConditionStack.empty o.elsePolicy)) none [] (Piece.ofBody b)) := by
  obtain ⟨qs, ha, hjoin⟩ := Piece.exists_ofBody_semicolon h
  obtain ⟨fs, t, cs, hend, hcut⟩ :=
    Fragment.exists_ofPieces_semicolon qs (ConditionStack.empty o.elsePolicy) none []
  have happlied : applied a = qs.filterMap Piece.directive? := by
    rw [applied, ha, List.filterMap_append]
    exact List.append_nil _
  have hbehind : subprogramsBehind o a = List.foldl depthBehind 0 (fs ++ [⟨t, cs⟩]) := by
    rw [subprogramsBehind, ha, hend, List.foldl_concat, List.foldl_concat, depthBehind_newline]
  have hfirst : ofBody o a = ofFragments 0 (fs ++ [⟨t, cs⟩]) := by
    rw [ofBody, ha, hend, ofFragments_append, ofFragments_append, ofFragments_cons,
      ofFragments_cons, ofFragment_newline]
    rfl
  rw [ofBody, hjoin, hcut, List.append_cons, ofFragments_append, hbehind, hfirst, happlied]

/-- **Bodies compose.** When the last line of a body holds no directive word, and no condition and no
task or function is open behind it, a semicolon and another body behind it are read as the other body
is by itself: the statements, the diagnostics and the instances are those of both, in order. -/
theorem ofBody_join (o : Options) (module : String) {a : Text}
    (line : ∀ l ∈ (Text.lines a).getLast?, Directive.Free l) (conditions : openBehind o a = [])
    (subprograms : subprogramsBehind o a = 0) (b : Text) :
    ofBody o (a ++ ';' :: b) = ofBody o a ++ ofBody o b ∧
      bodyDiagnostics module o (a ++ ';' :: b) =
        bodyDiagnostics module o a ++ bodyDiagnostics module o b ∧
      (ofBody o (a ++ ';' :: b)).filterMap (Instance.ofStatement? o) =
        (ofBody o a).filterMap (Instance.ofStatement? o) ++
          (ofBody o b).filterMap (Instance.ofStatement? o) := by
  have hstack := foldl_advance_of_openBehind conditions
  have hbody : ofBody o (a ++ ';' :: b) = ofBody o a ++ ofBody o b := by
    rw [ofBody_semicolon line, hstack, subprograms]
    rfl
  refine ⟨hbody, ?_, by rw [hbody, List.filterMap_append]⟩
  rw [bodyDiagnostics_eq, bodyDiagnostics_eq, bodyDiagnostics_eq, applied_semicolon line,
    ConditionStack.rejected_append, hstack, List.map_append]

/-- A body with a region, a task and a macro in its last line, before one that begins with an
`endif`. -/
theorem ofBody_join_task :
    let a := "`ifdef P\nm u0 (a);\n`endif\ntask t; endtask : t m u1 (`W)".toList
    let b := "`endif\n`ifdef Q\nm u2 (c);".toList
    (∀ l ∈ (Text.lines a).getLast?, Directive.Free l) ∧ openBehind {} a = [] ∧
      subprogramsBehind {} a = 0 ∧
      ofBody {} (a ++ ';' :: b) =
        [⟨"m u0 (a)".toList, ["`ifdef P"], false⟩, ⟨"task t".toList, [], true⟩,
          ⟨"m u1 (`W)".toList, [], false⟩, ⟨"m u2 (c)".toList, ["`ifdef Q"], false⟩,
          ⟨[], ["`ifdef Q"], false⟩] ∧
      bodyDiagnostics "top" {} (a ++ ';' :: b) = [⟨.unbalancedEndif, "top", "`endif"⟩] ∧
      ((ofBody {} (a ++ ';' :: b)).filterMap (Instance.ofStatement? {})).map Instance.callee =
        ["m", "m", "m"] := by
  intro a b
  have hline : ∀ l ∈ (Text.lines a).getLast?, Directive.Free l := by decide +kernel
  have hconditions : openBehind {} a = [] := by decide +kernel
  have hsubprograms : subprogramsBehind {} a = 0 := by decide +kernel
  have ha : ofBody {} a = [⟨"m u0 (a)".toList, ["`ifdef P"], false⟩,
      ⟨"task t".toList, [], true⟩, ⟨"m u1 (`W)".toList, [], false⟩] := by decide +kernel
  have hb : ofBody {} b = [⟨"m u2 (c)".toList, ["`ifdef Q"], false⟩,
      ⟨[], ["`ifdef Q"], false⟩] := by decide +kernel
  obtain ⟨hbody, hdiagnostics, hinstances⟩ := ofBody_join {} "top" hline hconditions hsubprograms b
  refine ⟨hline, hconditions, hsubprograms, ?_, ?_, ?_⟩
  · rw [hbody, ha, hb]
    rfl
  · rw [hdiagnostics]
    decide +kernel
  · rw [hinstances, ha, hb]
    decide +kernel

end Statement

end DesignAtlas
