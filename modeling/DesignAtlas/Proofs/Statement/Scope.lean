import DesignAtlas.Proofs.Statement.Place

/-! # Statements in tasks and functions

The words of a body are its longest runs of word characters. Where each word that begins a task or
function is the first one of its statement, and no more of them are ended than begun at any place, a
body is `Scoped`. Every statement between a word that begins a task or function and the word that
ends it is then known to stand in one. A statement behind the last of these words is known to stand
outside exactly when each word that ends a task or function was cut off the front of a statement
(`Statement.inSubprogram_of_scoped`); one that stands elsewhere, behind the `end` of a block say, is
not seen. -/

namespace DesignAtlas

open Text (split)

/-! ### Words -/

namespace Text

/-- The longest runs of word characters in a text. -/
def runs (t : Text) : List Text := (split (fun c => !isWordChar c) t).filter fun w => !w.isEmpty

/-- No run of word characters goes on from the end of `a` into `b`. -/
def Apart (a b : Text) : Prop :=
  (∀ c ∈ a.getLast?, isWordChar c = false) ∨ ∀ c ∈ b.head?, isWordChar c = false

variable {a b c : Text}

theorem apart_nil_left (b : Text) : Apart [] b := Or.inl fun _ h => nomatch h

theorem apart_nil_right (a : Text) : Apart a [] := Or.inr fun _ h => nomatch h

/-- What stands apart from two texts in a row stands apart from the first, and both stand apart from
the second if they do. -/
theorem Apart.append (ha : Apart a (b ++ c)) (hb : Apart b c) : Apart a b ∧ Apart (a ++ b) c := by
  cases b with
  | nil => exact ⟨apart_nil_right a, by rwa [List.append_nil]⟩
  | cons d u =>
    refine ⟨ha, ?_⟩
    rcases hb with hb | hb
    · exact Or.inl fun e he => hb e (by
        rwa [List.getLast?_append_of_ne_nil _ (List.cons_ne_nil d u)] at he)
    · exact Or.inr hb

/-- A run of word characters stands apart from what follows it. -/
theorem apart_dropWhile (a t : Text) :
    Apart (a ++ t.takeWhile isWordChar) (t.dropWhile isWordChar) := by
  refine Or.inr fun d hd => ?_
  have := List.head?_dropWhile_not isWordChar t
  rw [hd] at this
  simpa using this

/-- Blanks may be taken off the second text. -/
theorem Apart.dropBlanks (h : Apart a b) : Apart (a ++ b.takeWhile isBlank) (trimStart b) := by
  by_cases hnil : b.takeWhile isBlank = []
  · have hb : trimStart b = b := by
      conv_rhs => rw [← List.takeWhile_append_dropWhile (p := isBlank) (l := b), hnil]
      rfl
    rwa [hnil, hb, List.append_nil]
  · refine Or.inl fun d hd => ?_
    rw [List.getLast?_append_of_ne_nil _ hnil] at hd
    exact isWordChar_of_isBlank (List.mem_takeWhile_imp (List.mem_of_getLast? hd))

theorem runs_append_sep {d : Char} (h : isWordChar d = false) (a b : Text) :
    runs (a ++ d :: b) = runs a ++ runs b := by
  unfold runs
  rw [split_append_sep (by simp [h]), List.filter_append]

theorem runs_append (h : Apart a b) : runs (a ++ b) = runs a ++ runs b := by
  have hnil : runs [] = [] := rfl
  rcases h with h | h
  · obtain rfl | ⟨u, d, rfl⟩ := List.eq_nil_or_concat a
    · rfl
    · have hd := h d (by simp)
      rw [List.concat_eq_append, List.append_assoc, List.singleton_append, runs_append_sep hd,
        runs_append_sep hd u [], hnil, List.append_nil]
  · cases b with
    | nil => rw [List.append_nil, hnil, List.append_nil]
    | cons d u =>
      have hd := h d rfl
      have hrest := runs_append_sep hd [] u
      rw [hnil, List.nil_append] at hrest
      rw [runs_append_sep hd, hrest, List.nil_append]

theorem runs_eq_nil (h : ∀ d ∈ a, isWordChar d = false) : runs a = [] := by
  induction a with
  | nil => rfl
  | cons d a ih =>
    have hd := runs_append_sep (h d List.mem_cons_self) [] a
    rw [List.nil_append] at hd
    rw [hd, ih fun e he => h e (List.mem_cons_of_mem d he)]
    rfl

/-- Text without word characters adds no run in front. -/
theorem runs_gap_append (h : ∀ d ∈ a, isWordChar d = false) (b : Text) :
    runs (a ++ b) = runs b := by
  rw [runs_append (Or.inl fun d hd => h d (List.mem_of_getLast? hd)), runs_eq_nil h,
    List.nil_append]

/-- Text without word characters adds no run behind. -/
theorem runs_append_gap (h : ∀ d ∈ b, isWordChar d = false) (a : Text) :
    runs (a ++ b) = runs a := by
  rw [runs_append (Or.inr fun d hd => h d (List.mem_of_head? hd)), runs_eq_nil h, List.append_nil]

/-- The runs of a text are those of its pieces, when no word character separates them. -/
theorem runs_eq_flatMap {sep : Char → Bool} (h : ∀ d, sep d = true → isWordChar d = false)
    (t : Text) : runs t = (split sep t).flatMap runs := by
  obtain ⟨l, ls, hl, ⟨ht, hls⟩ | ⟨d, u, hd, ht, hls⟩⟩ := exists_split_eq_cons sep t
  · rw [hl, hls, ht, List.flatMap_singleton]
  · have hlength : u.length < t.length := by
      rw [ht, List.length_append, List.length_cons]
      omega
    rw [hl, hls, ht, List.flatMap_cons, runs_append_sep (h d hd), runs_eq_flatMap h u]
  termination_by t.length

theorem runs_trim (t : Text) : runs (trim t) = runs t := by
  obtain ⟨lead, trail, ht, hlead, htrail⟩ := exists_trim t
  have hlead' : ∀ d ∈ lead, isWordChar d = false := fun d hd => isWordChar_of_isBlank (hlead d hd)
  have htrail' : ∀ d ∈ trail, isWordChar d = false :=
    fun d hd => isWordChar_of_isBlank (htrail d hd)
  conv_rhs => rw [ht]
  rw [runs_gap_append hlead', runs_append_gap htrail']

end Text

namespace Statement

open Text (runs Apart)

/-- How many of the words begin a task or function. -/
def openings (ws : List Text) : Nat :=
  ws.countP fun w => w == "task".toList || w == "function".toList

/-- How many of the words end a task or function. -/
def closings (ws : List Text) : Nat :=
  ws.countP fun w => w == "endtask".toList || w == "endfunction".toList

/-- How many words that end a task or function are cut off the pieces. -/
def cutEnds : List Text → Nat
  | [] => 0
  | p :: ps => (dropEnds (Text.trim p)).1 + cutEnds ps

variable {t r : Text}

theorem openings_append (us vs : List Text) : openings (us ++ vs) = openings us + openings vs :=
  List.countP_append

theorem closings_append (us vs : List Text) : closings (us ++ vs) = closings us + closings vs :=
  List.countP_append

theorem cutEnds_append_singleton (p : Text) : ∀ ps : List Text,
    cutEnds (ps ++ [p]) = cutEnds ps + (dropEnds (Text.trim p)).1
  | [] => Nat.add_comm _ _
  | q :: ps => by
    rw [List.cons_append, cutEnds, cutEnds, cutEnds_append_singleton p ps, Nat.add_assoc]

/-! ### Words that are cut off -/

/-- A text whose first word has word characters only begins with this run. -/
theorem apart_of_firstWord {w : String} (h : firstWord t = w) :
    t = w.toList ++ t.dropWhile (fun c => !isBlank c) ∧
      Apart w.toList (t.dropWhile fun c => !isBlank c) := by
  have hword : t.takeWhile (fun c => !isBlank c) = w.toList := by
    rw [← h, firstWord, String.toList_ofList]
  refine ⟨by rw [← hword, List.takeWhile_append_dropWhile], Or.inr fun c hc => ?_⟩
  have := List.head?_dropWhile_not (fun c => !isBlank c) t
  rw [show (t.dropWhile fun c => !isBlank c).head? = some c from hc] at this
  exact isWordChar_of_isBlank (by simpa using this)

/-- A label stands apart from what follows it, and so does its colon from what stands before. -/
theorem exists_dropLabel {a : Text} (h : Apart a t) :
    ∃ y, t = y ++ dropLabel t ∧ Apart a y ∧ Apart (a ++ y) (dropLabel t) := by
  have hlabel : ∃ y, t = y ++ dropLabel t ∧ Apart y (dropLabel t) := by
    unfold dropLabel
    split
    · rename_i t
      refine ⟨':' :: t.takeWhile isBlank ++ (Text.trimStart t).takeWhile isWordChar ++
        ((Text.trimStart t).dropWhile isWordChar).takeWhile isBlank, ?_,
        (Text.apart_dropWhile _ _).dropBlanks⟩
      simp only [Text.trimStart, List.append_assoc, List.takeWhile_append_dropWhile,
        List.cons_append]
    · exact ⟨[], rfl, Text.apart_nil_left t⟩
  obtain ⟨y, hy, hapart⟩ := hlabel
  rw [hy] at h
  exact ⟨y, hy, h.append hapart⟩

/-- What is cut off with a word that ends a task or function holds such a word, and stands apart
from what is left. -/
theorem exists_afterEnd? (h : afterEnd? t = some r) :
    ∃ y, t = y ++ r ∧ Apart y r ∧ 1 ≤ closings (runs y) := by
  unfold afterEnd? at h
  split_ifs at h with hword
  obtain rfl := Option.some.inj h
  obtain ⟨w, hw, hmem⟩ : ∃ w : String, firstWord t = w ∧ (w = "endtask" ∨ w = "endfunction") :=
    ⟨_, rfl, hword⟩
  obtain ⟨hsplit, hapart⟩ := apart_of_firstWord hw
  generalize t.dropWhile (fun c => !isBlank c) = d at hsplit hapart ⊢
  obtain ⟨y, hy, hgap, hrest⟩ := exists_dropLabel hapart.dropBlanks
  refine ⟨w.toList ++ d.takeWhile isBlank ++ y, ?_, hrest, ?_⟩
  · rw [List.append_assoc, List.append_assoc, ← hy, Text.trimStart,
      List.takeWhile_append_dropWhile]
    exact hsplit
  · have hblank : ∀ c ∈ d.takeWhile isBlank, isWordChar c = false :=
      fun c hc => isWordChar_of_isBlank (List.mem_takeWhile_imp hc)
    rw [Text.runs_append hgap, Text.runs_append_gap hblank, closings_append]
    refine Nat.le_add_right_of_le ?_
    rcases hmem with rfl | rfl <;> decide

/-- **What is cut off a text** holds as many ending words as are counted, and stands apart from what
is left. -/
theorem exists_dropEnds (t : Text) : ∃ y, t = y ++ (dropEnds t).2 ∧ Apart y (dropEnds t).2 ∧
    (dropEnds t).1 ≤ closings (runs y) := by
  fun_induction dropEnds t with
  | case1 t h => exact ⟨[], rfl, Text.apart_nil_left t, Nat.zero_le _⟩
  | case2 t r h ih =>
    obtain ⟨x, hx, hxr, hone⟩ := exists_afterEnd? h
    obtain ⟨y, hy, hapart, hle⟩ := ih
    obtain ⟨hxy, hrest⟩ := Apart.append (hy ▸ hxr) hapart
    refine ⟨x ++ y, by rw [List.append_assoc, ← hy]; exact hx, hrest, ?_⟩
    rw [Text.runs_append hxy, closings_append]
    omega

/-- A statement that begins a task or function holds a word that does. -/
theorem one_le_openings (h : opensSubprogram t = true) : 1 ≤ openings (runs t) := by
  obtain ⟨w, hw, hmem⟩ : ∃ w : String, firstWord t = w ∧ (w = "task" ∨ w = "function") :=
    ⟨_, rfl, by simpa [opensSubprogram] using h⟩
  obtain ⟨hsplit, hapart⟩ := apart_of_firstWord hw
  rw [hsplit, Text.runs_append hapart, openings_append]
  refine Nat.le_add_right_of_le ?_
  rcases hmem with rfl | rfl <;> decide

/-- The words of a piece before its text hold the ending words that are cut off. -/
theorem exists_runs_front (p : Text) : ∃ ws, runs p = ws ++ runs (dropEnds (Text.trim p)).2 ∧
    (dropEnds (Text.trim p)).1 ≤ closings ws := by
  obtain ⟨y, hy, hapart, hle⟩ := exists_dropEnds (Text.trim p)
  refine ⟨runs y, ?_, hle⟩
  rw [← Text.runs_append hapart, ← hy, Text.runs_trim]

/-- **A piece in two parts**, its text and what stands before it: the words of both are those of the
piece, and the ending words that are cut off are in the first. -/
theorem runs_front {p front trail : Text} (hp : p = front ++ ((dropEnds (Text.trim p)).2 ++ trail))
    (htrail : ∀ c ∈ trail, isBlank c = true) :
    runs p = runs front ++ runs (dropEnds (Text.trim p)).2 ∧
      (dropEnds (Text.trim p)).1 ≤ closings (runs front) := by
  obtain ⟨lead, trail', htrim, hlead, htrail'⟩ := Text.exists_trim p
  obtain ⟨y, hy, hapart, hle⟩ := exists_dropEnds (Text.trim p)
  have hgap : ∀ {g : Text}, (∀ c ∈ g, isBlank c = true) → ∀ c ∈ g, isWordChar c = false :=
    fun hg c hc => isWordChar_of_isBlank (hg c hc)
  have hruns : runs p = runs y ++ runs (dropEnds (Text.trim p)).2 := by
    rw [← Text.runs_append hapart, ← hy, Text.runs_trim]
  have hfront : runs front = runs y := by
    by_cases hne : (dropEnds (Text.trim p)).2 = []
    · rw [hne, List.nil_append] at hp
      rw [← Text.runs_append_gap (hgap htrail) front, ← hp, hruns, hne]
      exact List.append_nil _
    · -- both ways to trim the end of the piece leave its text there
      have hback := (trimmed_dropEnds (Text.trimmed_trim p)).back
      have h1 := Text.trimEnd_append hne hback htrail front
      have h2 := Text.trimEnd_append hne hback htrail' (lead ++ y)
      have hp' : p = lead ++ y ++ ((dropEnds (Text.trim p)).2 ++ trail') := by
        rw [List.append_assoc, ← List.append_assoc y, ← hy]
        exact htrim
      rw [← hp] at h1
      rw [← hp', h1] at h2
      rw [List.append_cancel_right h2, Text.runs_gap_append (hgap hlead)]
  rw [hfront]
  exact ⟨hruns, hle⟩

theorem cutEnds_le_closings : ∀ ps : List Text, cutEnds ps ≤ closings (ps.flatMap runs)
  | [] => Nat.zero_le _
  | p :: ps => by
    obtain ⟨ws, hws, hle⟩ := exists_runs_front p
    have ih := cutEnds_le_closings ps
    rw [List.flatMap_cons, hws, closings_append, closings_append]
    rw [cutEnds]
    omega

/-! ### The depth of a statement -/

/-- The words of a body that begin and end tasks and functions pair up like brackets, but for those
left open, and each one that begins a task or function is the first word of its statement. -/
structure Scoped (body : Text) : Prop where
  plain : '\x60' ∉ body
  headed : ∀ p ∈ split (· == ';') (code body),
    openings (runs p) = if opensSubprogram (dropEnds (Text.trim p)).2 then 1 else 0
  nested : ∀ ws ∈ (runs body).inits, closings ws ≤ openings ws

namespace Scoped

variable {body p : Text} {ps qs ws : List Text}

theorem isWordChar_of_semicolon {c : Char} (h : (c == ';') = true) : isWordChar c = false := by
  rw [eq_of_beq h]
  decide

theorem runs_body (h : Scoped body) : runs body = (split (· == ';') (code body)).flatMap runs := by
  rw [← Text.runs_eq_flatMap fun _ => isWordChar_of_semicolon, code_of_plain h.plain]
  refine (Text.runs_append_gap (fun d hd => ?_) body).symm
  rw [List.mem_singleton.mp hd]
  decide

/-- Nothing begins a task or function before the text of a statement in its piece. -/
theorem openings_front (h : Scoped body) (hp : p ∈ split (· == ';') (code body))
    (hws : runs p = ws ++ runs (dropEnds (Text.trim p)).2) : openings ws = 0 := by
  have hheaded := h.headed p hp
  rw [hws, openings_append] at hheaded
  split_ifs at hheaded with hopens
  · have := one_le_openings hopens
    omega
  · omega

/-- Where the text of a statement begins, no more is ended than was begun in earlier pieces. -/
theorem closings_front (h : Scoped body) (hps : split (· == ';') (code body) = ps ++ p :: qs)
    (hws : runs p = ws ++ runs (dropEnds (Text.trim p)).2) :
    closings (ps.flatMap runs) + closings ws ≤ openings (ps.flatMap runs) := by
  have hmem : ps.flatMap runs ++ ws ∈ (runs body).inits := by
    rw [List.mem_inits, h.runs_body, hps, List.flatMap_append, List.flatMap_cons, hws,
      List.append_assoc, ← List.append_assoc]
    exact List.prefix_append _ _
  have hnested := h.nested _ hmem
  rw [closings_append, openings_append,
    h.openings_front (hps ▸ List.mem_append_right ps List.mem_cons_self) hws] at hnested
  exact hnested

theorem depthBehind_eq (h : Scoped body) (hp : p ∈ split (· == ';') (code body)) (depth : Nat) :
    depthBehind depth ⟨p, []⟩ = depth - (dropEnds (Text.trim p)).1 + openings (runs p) := by
  rw [h.headed p hp, depthBehind]
  simp only
  split_ifs <;> rfl

/-- **The depth behind some pieces** is what the words in them begin, less the words cut off. -/
theorem depth (h : Scoped body) (hps : split (· == ';') (code body) = ps ++ qs) :
    (fragments ps).foldl depthBehind 0 + cutEnds ps = openings (ps.flatMap runs) := by
  induction ps using List.reverseRecOn generalizing qs with
  | nil => rfl
  | append_singleton ps p ih =>
    rw [List.append_assoc, List.singleton_append] at hps
    have ih := ih hps
    have hp : p ∈ split (· == ';') (code body) := hps ▸ List.mem_append_right ps List.mem_cons_self
    -- the words cut off this piece end what earlier pieces begin
    obtain ⟨ws, hws, hle⟩ := exists_runs_front p
    have hfront := h.closings_front hps hws
    have hcut := cutEnds_le_closings ps
    have hfold : (fragments (ps ++ [p])).foldl depthBehind 0 =
        depthBehind ((fragments ps).foldl depthBehind 0) ⟨p, []⟩ := by
      simp [fragments]
    rw [hfold, h.depthBehind_eq hp, cutEnds_append_singleton, List.flatMap_append,
      List.flatMap_singleton, openings_append]
    omega

end Scoped

/-- A statement of a body without directives is that of its piece, at the depth behind those before
it. -/
theorem eq_ofFragment_of_plain {o : Options} {body p : Text} {ps qs : List Text} {k : Nat}
    {s : Statement} (h : '\x60' ∉ body) (hs : (ofBody o body)[k]? = some s)
    (hps : split (· == ';') (code body) = ps ++ p :: qs) (hk : ps.length = k) :
    s = ofFragment ((fragments ps).foldl depthBehind 0) ⟨p, []⟩ := by
  rw [ofBody_of_plain o h, ← code_of_plain h, hps, getElem?_ofFragments] at hs
  subst hk
  simpa [fragments] using hs.symm

/-- A place for the text of each statement of a body without directives. -/
theorem exists_beginsAt_of_plain {o : Options} {body : Text} (h : '\x60' ∉ body) {k : Nat}
    {s : Statement} (hs : (ofBody o body)[k]? = some s) :
    ∃ a b, body = a ++ b ∧ BeginsAt k s.text a b := by
  obtain ⟨x, z, hcode, hne, -, hplace⟩ := exists_text_of_getElem? hs
  obtain ⟨b, d, rfl⟩ := List.eq_nil_or_concat z |>.resolve_left hne
  rw [code_of_plain h, List.concat_eq_append, ← List.append_assoc] at hcode
  obtain ⟨rfl, hd⟩ := List.append_inj' hcode rfl
  have hx : '\x60' ∉ x := fun hmem => h (List.mem_append_left b hmem)
  have hb : '\x60' ∉ b := fun hmem => h (List.mem_append_right x hmem)
  refine ⟨x, b, rfl, hplace x b (Text.inCode_of_plain hx) (code_of_plain hx) ?_⟩
  rw [code_of_plain hb, List.concat_eq_append, hd]

/-- **Tasks and functions are told by the words cut off.** A statement that begins one or stands
between its words is marked. One behind the last of them is marked as well, unless all the words
before it that end a task or function were cut off the fronts of statements. -/
theorem inSubprogram_of_scoped {o : Options} {body : Text} (h : Scoped body) {k : Nat}
    {s : Statement} (hs : (ofBody o body)[k]? = some s) :
    (∃ a b, body = a ++ b ∧ BeginsAt k s.text a b) ∧
      ∀ a b, body = a ++ b → BeginsAt k s.text a b →
        (opensSubprogram s.text = true ∨ closings (runs a) < openings (runs a) →
          s.inSubprogram = true) ∧
        (opensSubprogram s.text = false → closings (runs a) = openings (runs a) →
          (s.inSubprogram = true ↔
            cutEnds ((split (· == ';') (code body)).take (k + 1)) < closings (runs a))) := by
  refine ⟨exists_beginsAt_of_plain h.plain hs, ?_⟩
  rintro a b rfl hplace
  obtain ⟨g, -, hpiece, -, htext⟩ := exists_fragment hs
  obtain ⟨x, ps, front, trail, qs, hx, hps, hk, hsplit, hp, htrail⟩ := hplace.exists_piece hpiece
  have ha : '\x60' ∉ a := fun hmem => h.plain (List.mem_append_left b hmem)
  rw [code_of_plain ha] at hx
  obtain rfl := (List.append_inj' hx rfl).1
  rw [htext] at hp
  obtain ⟨hruns, hle⟩ := runs_front hp htrail
  have hstatement := eq_ofFragment_of_plain h.plain hs hsplit hk
  -- what stands before the text: earlier pieces and the front of its own
  have hbefore : runs a = ps.flatMap runs ++ runs front := by
    rw [Text.runs_eq_flatMap fun _ => Scoped.isWordChar_of_semicolon, hps, List.flatMap_append,
      List.flatMap_singleton]
  have htake : cutEnds ((split (· == ';') (code (a ++ b))).take (k + 1)) =
      cutEnds ps + (dropEnds (Text.trim g.text)).1 := by
    have hparts : ps ++ g.text :: qs = ps ++ [g.text] ++ qs := List.append_cons ps g.text qs
    rw [hsplit, hparts, List.take_left' (by rw [List.length_append, hk]; rfl),
      cutEnds_append_singleton]
  have hdepth := h.depth hsplit
  have hfront := h.closings_front hsplit hruns
  have hcut := cutEnds_le_closings ps
  have hnone := h.openings_front (hsplit ▸ List.mem_append_right ps List.mem_cons_self) hruns
  have hmarked : s.inSubprogram = true ↔ opensSubprogram s.text = true ∨
      0 < (fragments ps).foldl depthBehind 0 - (dropEnds (Text.trim g.text)).1 := by
    rw [congrArg inSubprogram hstatement, htext]
    simp [ofFragment]
  rw [hbefore, htake, closings_append, openings_append, hnone]
  refine ⟨fun hin => hmarked.mpr (hin.imp_right fun hlt => by omega), fun hopens heq => ?_⟩
  rw [hmarked, hopens]
  simp only [Bool.false_eq_true, false_or]
  omega

/-- Where the last block of a task ends directly before `endtask`, a declaration behind the task is
taken for a local one. -/
theorem inSubprogram_of_scoped_block :
    Scoped "task t;\nbegin x = 1; end\nendtask\nwire w;\nwire v;\n".toList ∧
      (ofBody {} "task t;\nbegin x = 1; end\nendtask\nwire w;\nwire v;\n".toList)[3]? =
        some ⟨"wire v".toList, [], true⟩ ∧
      BeginsAt 3 "wire v".toList "task t;\nbegin x = 1; end\nendtask\nwire w;\n".toList
        "wire v;\n".toList ∧
      cutEnds ((split (· == ';')
          (code "task t;\nbegin x = 1; end\nendtask\nwire w;\nwire v;\n".toList)).take 4) <
        closings (runs "task t;\nbegin x = 1; end\nendtask\nwire w;\n".toList) := by
  have h : Scoped "task t;\nbegin x = 1; end\nendtask\nwire w;\nwire v;\n".toList :=
    ⟨by decide +kernel, by decide +kernel, by decide +kernel⟩
  have hs : (ofBody {} "task t;\nbegin x = 1; end\nendtask\nwire w;\nwire v;\n".toList)[3]? =
      some ⟨"wire v".toList, [], true⟩ := by
    decide +kernel
  have hplace : BeginsAt 3 "wire v".toList
      "task t;\nbegin x = 1; end\nendtask\nwire w;\n".toList "wire v;\n".toList :=
    ⟨by decide +kernel, by decide +kernel, [], ["\n\n".toList], by decide +kernel, by simp⟩
  have hmarked := (inSubprogram_of_scoped h hs).2 _ _ (by decide +kernel) hplace
  exact ⟨h, hs, hplace, (hmarked.2 (by decide +kernel) (by decide +kernel)).mp rfl⟩

end Statement

end DesignAtlas
