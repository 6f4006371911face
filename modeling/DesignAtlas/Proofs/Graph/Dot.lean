import DesignAtlas.Graph
import DesignAtlas.Text.Basic
import Mathlib.Tactic.Common

/-! # The DOT text tells the graph

A text in quotes ends at the first quote that no backslash escapes, so it can be told apart from
what stands behind it, whatever backslashes and quotes it holds (`prefixFree_quote`). The lines of
nodes and edges are made of such texts and of fixed ones (`prefixFree_nodeLine`,
`prefixFree_edgeLine`). An edge does not begin like a node and the closing brace not like an edge,
which tells where the nodes and the edges end: the text determines the graph (`toDot_inj`). -/

namespace DesignAtlas.Graph

/-! ### Texts told apart from what stands behind them -/

section PrefixFree

variable {α : Type} {f : α → Text}

/-- What `f` writes is told apart from whatever stands behind it. -/
def PrefixFree (f : α → Text) : Prop := ∀ a b u v, f a ++ u = f b ++ v → a = b ∧ u = v

/-- The text does not begin with anything that `f` writes. -/
def Ends (f : α → Text) (t : Text) : Prop := ∀ a u, t ≠ f a ++ u

/-- **A run of texts** is told apart from what does not begin like one of them. -/
theorem PrefixFree.flatMap_append_inj (hf : PrefixFree f) : ∀ {as bs : List α} {u v : Text},
    Ends f u → Ends f v → as.flatMap f ++ u = bs.flatMap f ++ v → as = bs ∧ u = v
  | [], [], _, _, _, _, h => ⟨rfl, h⟩
  | [], b :: bs, _, _, hu, _, h => by
    rw [List.flatMap_cons, List.append_assoc] at h
    exact absurd h (hu b _)
  | a :: as, [], _, _, _, hv, h => by
    rw [List.flatMap_cons, List.append_assoc] at h
    exact absurd h.symm (hv a _)
  | a :: as, b :: bs, u, v, hu, hv, h => by
    rw [List.flatMap_cons, List.flatMap_cons, List.append_assoc, List.append_assoc] at h
    obtain ⟨rfl, hrest⟩ := hf a b _ _ h
    obtain ⟨rfl, rfl⟩ := hf.flatMap_append_inj hu hv hrest
    exact ⟨rfl, rfl⟩

end PrefixFree

/-- Texts that differ in a character are different, whatever stands behind them. -/
theorem append_ne {a b : Text} (c d : Char) (i : Nat) (ha : a[i]? = some c)
    (hb : b[i]? = some d) (hne : c ≠ d) (u v : Text) : a ++ u ≠ b ++ v := by
  have hfront : ∀ {t : Text} {x : Char}, t[i]? = some x → ∀ w : Text, (t ++ w)[i]? = some x :=
    fun ht w => by rw [List.getElem?_append_left (List.getElem?_eq_some_iff.mp ht).1, ht]
  intro h
  have hchar := hfront ha u
  rw [h, hfront hb v] at hchar
  exact hne (Option.some.inj hchar).symm

/-! ### Quoted texts -/

theorem prefixFree_quoteChar : PrefixFree quoteChar := by
  intro c d u v h
  unfold quoteChar at h
  split_ifs at h with hc hd hd
  · simpa using h
  · -- a backslash that escapes is no character by itself
    obtain ⟨rfl, -⟩ := List.cons.inj h
    exact absurd (Or.inr rfl) hd
  · obtain ⟨rfl, -⟩ := List.cons.inj h
    exact absurd (Or.inr rfl) hc
  · simpa using h

/-- No character is written as a quote at the front of a text. -/
theorem ends_quoteChar (t : Text) : Ends quoteChar ('\x22' :: t) := by
  intro c u h
  unfold quoteChar at h
  split_ifs at h with hc
  · exact absurd (List.cons.inj h).1 (by decide)
  · exact hc (Or.inl (List.cons.inj h).1.symm)

theorem toList_quote (s : String) :
    (quote s).toList = '\x22' :: (s.toList.flatMap quoteChar ++ ['\x22']) := by
  unfold quote
  simp only [String.toList_append, String.toList_ofList, List.append_assoc]
  rfl

/-- **A quoted text ends where its closing quote stands.** -/
theorem prefixFree_quote : PrefixFree fun s => (quote s).toList := by
  intro s s' u v h
  simp only [toList_quote, List.cons_append, List.append_assoc, List.nil_append, List.cons.injEq,
    true_and] at h
  obtain ⟨hs, hrest⟩ := prefixFree_quoteChar.flatMap_append_inj (ends_quoteChar u)
    (ends_quoteChar v) h
  exact ⟨String.toList_inj.mp hs, (List.cons.inj hrest).2⟩

/-! ### Lines -/

theorem prefixFree_word : PrefixFree fun s => (NodeShape.word s).toList := by
  intro s s' u v h
  cases s <;> cases s'
  · exact ⟨rfl, List.append_cancel_left h⟩
  · exact absurd h (append_ne 'b' 'p' 0 rfl rfl (by decide) u v)
  · exact absurd h (append_ne 'p' 'b' 0 rfl rfl (by decide) u v)
  · exact ⟨rfl, List.append_cancel_left h⟩

/-- The end of the line of a node. -/
def lineEnd : Option String → String
  | some url => ", URL=" ++ quote url ++ "];\n"
  | none => "];\n"

theorem prefixFree_lineEnd : PrefixFree fun url => (lineEnd url).toList := by
  intro url url' u v h
  cases url <;> cases url' <;>
    simp only [lineEnd, String.toList_append, List.append_assoc] at h
  · exact ⟨rfl, List.append_cancel_left h⟩
  · exact absurd h (append_ne ']' ',' 0 rfl rfl (by decide) _ _)
  · exact absurd h (append_ne ',' ']' 0 rfl rfl (by decide) _ _)
  · obtain ⟨rfl, hrest⟩ := prefixFree_quote _ _ _ _ (List.append_cancel_left h)
    exact ⟨rfl, List.append_cancel_left hrest⟩

theorem toList_nodeLine (n : GraphNode) : (nodeLine n).toList =
    "  ".toList ++ ((quote n.id).toList ++ (" [label=".toList ++ ((quote n.label).toList ++
      (", shape=".toList ++ (n.shape.word.toList ++ (lineEnd n.url).toList))))) := by
  obtain ⟨id, label, shape, url⟩ := n
  cases url with
  | none =>
    simp only [nodeLine, lineEnd, String.toList_append, List.append_assoc]
    rfl
  | some url => simp only [nodeLine, lineEnd, String.toList_append, List.append_assoc]

theorem toList_edgeLine (e : GraphEdge) : (edgeLine e).toList =
    "  ".toList ++ ((quote e.source).toList ++
      (" -> ".toList ++ ((quote e.target).toList ++ ";\n".toList))) := by
  simp only [edgeLine, String.toList_append, List.append_assoc]

/-- **The line of a node** tells all that is known about it. -/
theorem prefixFree_nodeLine : PrefixFree fun n => (nodeLine n).toList := by
  rintro ⟨id, label, shape, url⟩ ⟨id', label', shape', url'⟩ u v h
  simp only [toList_nodeLine, List.append_assoc] at h
  obtain ⟨rfl, hlabel⟩ := prefixFree_quote _ _ _ _ (List.append_cancel_left h)
  obtain ⟨rfl, hshape⟩ := prefixFree_quote _ _ _ _ (List.append_cancel_left hlabel)
  obtain ⟨rfl, hurl⟩ := prefixFree_word _ _ _ _ (List.append_cancel_left hshape)
  obtain ⟨rfl, rfl⟩ := prefixFree_lineEnd _ _ _ _ hurl
  exact ⟨rfl, rfl⟩

theorem prefixFree_edgeLine : PrefixFree fun e => (edgeLine e).toList := by
  rintro ⟨source, target⟩ ⟨source', target'⟩ u v h
  simp only [toList_edgeLine, List.append_assoc] at h
  obtain ⟨rfl, htarget⟩ := prefixFree_quote _ _ _ _ (List.append_cancel_left h)
  obtain ⟨rfl, hrest⟩ := prefixFree_quote _ _ _ _ (List.append_cancel_left htarget)
  exact ⟨rfl, List.append_cancel_left hrest⟩

/-! ### Graphs -/

/-- What stands in front of the nodes. -/
def opening : String := "digraph G \x7b\n  rankdir=LR;\n"

/-- The line that ends a graph. -/
def closing : String := "\x7d\n"

theorem ends_closing_edge : Ends (fun e => (edgeLine e).toList) closing.toList := by
  intro e u h
  simp only [toList_edgeLine, List.append_assoc] at h
  exact append_ne '\x7d' ' ' 0 rfl rfl (by decide) [] _ ((List.append_nil closing.toList).trans h)

theorem ends_closing_node : Ends (fun n => (nodeLine n).toList) closing.toList := by
  intro n u h
  simp only [toList_nodeLine, List.append_assoc] at h
  exact append_ne '\x7d' ' ' 0 rfl rfl (by decide) [] _ ((List.append_nil closing.toList).trans h)

/-- The line of an edge goes on with an arrow where that of a node goes on with its attributes. -/
theorem edgeLine_append_ne (e : GraphEdge) (t : Text) :
    Ends (fun n => (nodeLine n).toList) ((edgeLine e).toList ++ t) := by
  intro n u h
  simp only [toList_edgeLine, toList_nodeLine, List.append_assoc] at h
  obtain ⟨-, hrest⟩ := prefixFree_quote _ _ _ _ (List.append_cancel_left h)
  exact append_ne '-' '[' 1 rfl rfl (by decide) _ _ hrest

theorem ends_edges (es : List GraphEdge) : Ends (fun n => (nodeLine n).toList)
    (es.flatMap (fun e => (edgeLine e).toList) ++ closing.toList) := by
  cases es with
  | nil => exact ends_closing_node
  | cons e es =>
    rw [List.flatMap_cons, List.append_assoc]
    exact edgeLine_append_ne e _

theorem toDot_eq (g : Graph) : g.toDot = opening ++ String.join (g.nodes.map nodeLine) ++
    String.join (g.edges.map edgeLine) ++ closing := rfl

theorem toList_toDot (g : Graph) : g.toDot.toList =
    opening.toList ++ (g.nodes.flatMap (fun n => (nodeLine n).toList) ++
      (g.edges.flatMap (fun e => (edgeLine e).toList) ++ closing.toList)) := by
  simp only [toDot_eq, String.toList_append, String.toList_join, List.flatMap_map,
    List.append_assoc]

/-- **Graphs have the same DOT text only when they are the same**: the same nodes in the same order,
each with its label, shape and link, and the same edges in the same order, whatever texts they
hold. -/
theorem toDot_inj {g g' : Graph} : g.toDot = g'.toDot ↔ g = g' := by
  refine ⟨fun h => ?_, fun h => congrArg toDot h⟩
  have htext := congrArg String.toList h
  rw [toList_toDot, toList_toDot] at htext
  obtain ⟨hnodes, hrest⟩ := prefixFree_nodeLine.flatMap_append_inj (ends_edges g.edges)
    (ends_edges g'.edges) (List.append_cancel_left htext)
  obtain ⟨hedges, -⟩ := prefixFree_edgeLine.flatMap_append_inj ends_closing_edge
    ends_closing_edge hrest
  cases g
  cases g'
  rw [mk.injEq]
  exact ⟨hnodes, hedges⟩

end DesignAtlas.Graph
