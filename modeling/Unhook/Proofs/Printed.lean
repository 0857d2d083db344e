import Unhook.Proofs.Reference
import Unhook.Proofs.Splice

/-!
# Markup in brackets

What an expression is written as when it stands by itself is what the rule for
its kind writes, as the semicolon that a statement needs is taken away again.
For markup with its tags this begins and ends with an angle bracket.

* `Node.printExpression_eq`: an expression is written by the rule for its kind;
* `Node.angled_printExpression`: markup is written in angle brackets.
-/

namespace Unhook

open Printer

namespace Text

theorem trimEnd_line (t : Text) : trimEnd (t ++ ";\n".toList) = t ++ [';'] := by
  have hreverse : (t ++ ";\n".toList).reverse = '\n' :: ';' :: t.reverse := by simp
  rw [trimEnd, hreverse, List.dropWhile_cons_of_pos (by decide),
    List.dropWhile_cons_of_neg (by decide)]
  simp

theorem before?_concat (t : Text) (c : Char) : before? [c] (t ++ [c]) = some t := by
  simp [before?, after?]

end Text

namespace Node

variable {n : Node}

/-- An expression other than a string is written as the rule for its kind writes
    it at the beginning of a statement. -/
theorem printExpression_eq (h : ∀ v r, n.kind ≠ .string v r) :
    n.printExpression = n.piece.text { opening := .statement } := by
  have hstring : isStringStatement (mk .expressionStatement n.span [n]).piece.node = false := by
    obtain ⟨k, s, ps⟩ := n
    cases k
    case string v r => exact (h v r rfl).elim
    all_goals rfl
  have hline : ((bodyLines [(mk .expressionStatement n.span [n]).piece]).map fun l => l {}).flatten =
      n.piece.text { opening := .statement } ++ ";\n".toList := by
    rw [bodyLines, hstring]
    exact List.append_nil _
  rw [printExpression, printStatement, hline, Text.trimEnd_line]
  exact congrArg (Option.getD · _) (Text.before?_concat _ ';')

/-- Whether a node is markup with the tags that it needs: an element has an
    opening tag with a name, and ends with a closing one unless it has none. -/
def isTagged : Node → Bool
  | mk .fragment _ _ => true
  | mk .element _ (mk .opening _ (_ :: _ :: _) :: ps) =>
    match ps.getLast? with
    | some (mk .closing _ [_]) => true
    | some p => p.isAbsent
    | none => false
  | _ => false

theorem pieces_eq (ns : List Node) : pieces ns = ns.map piece := by
  induction ns with
  | nil => rfl
  | cons n ns ih => rw [pieces, ih, List.map_cons]

/-- Markup with its tags is written in angle brackets. -/
theorem angled_printExpression (h : n.isTagged = true) :
    n.printExpression.head? = some '<' ∧ n.printExpression.getLast? = some '>' := by
  have hlast (t u : Text) (hu : u.getLast? = some '>') : (t ++ u).getLast? = some '>' := by
    rw [List.getLast?_append, hu]
    rfl
  unfold isTagged at h
  split at h
  · next s ps =>
    rw [printExpression_eq (by simp)]
    exact ⟨rfl, hlast _ _ rfl⟩
  · next s so name types attributes ps =>
    rw [printExpression_eq (by simp)]
    have htext : (mk .element s (mk .opening so (name :: types :: attributes) :: ps)).piece.text
        { opening := .statement } = markup .element
          ((mk .opening so (name :: types :: attributes)).piece :: pieces ps)
          { opening := .statement } := rfl
    rw [htext]
    delta markup
    dsimp only
    rw [pieces_eq ps, ← List.map_reverse]
    -- The last part decides how the tag ends.
    split at h
    · next sc x hps =>
      obtain ⟨ps, rfl⟩ := List.getLast?_eq_some_iff.1 hps
      rw [List.reverse_concat]
      exact ⟨rfl, hlast _ _ (hlast _ _ rfl)⟩
    · next p _ hps =>
      obtain ⟨ps, rfl⟩ := List.getLast?_eq_some_iff.1 hps
      have habsent : p.piece.isAbsent = true := by
        cases p
        exact h
      rw [List.reverse_concat, List.map_cons]
      dsimp only
      rw [if_pos habsent]
      exact ⟨rfl, hlast _ _ rfl⟩
    · cases h
  · cases h

theorem isBracketed_printExpression (h : n.isTagged = true) :
    n.printExpression.isBracketed = true := by
  obtain ⟨hhead, hlast⟩ := angled_printExpression h
  rw [Text.isBracketed, hhead, hlast]
  rfl

/-- Filling holes leaves the tags of markup. -/
theorem isTagged_substitute {r : Text → Option Node} (h : n.isTagged = true) :
    (n.substitute r).isTagged = true := by
  unfold isTagged at h
  split at h
  · rw [substitute]
    rfl
  · next s so name types attributes ps =>
    rw [substitute, substituteChildren_eq]
    have hopening : fillPart r (mk .opening so (name :: types :: attributes)) =
        mk .opening so (name.substitute r :: types.substitute r :: substituteList r attributes) := by
      rw [fillPart, substitute, substituteList, substituteList]
      all_goals simp
    rw [List.map_cons, hopening, isTagged, List.getLast?_map]
    split at h
    · next sc x hps =>
      rw [hps]
      simp [fillPart, substitute, substituteList]
    · next p _ hps =>
      rw [hps]
      obtain ⟨k, sp, qs⟩ := p
      obtain rfl : k = .absent := of_decide_eq_true h
      rw [Option.map_some, fillPart, substitute_mk (by simp)]
      · rfl
      · simp
    · cases h
  · cases h

end Node

namespace MarkupTable

variable {t : MarkupTable}

/-- Markup variables whose names have no brackets, and whose values are written
    in brackets. -/
structure Bracketed (t : MarkupTable) : Prop where
  name : ∀ w u, t.text? w = some u → w.isUnbracketed = true
  text : ∀ w u, t.text? w = some u → u.isBracketed = true

/-- The text of a markup variable is that of its value, with some holes filled. -/
theorem exists_of_text? {w u : Text} (h : t.text? w = some u) :
    ∃ (v : Node) (r : Text → Option Node), (w, v) ∈ t ∧ u = if (v.substitute r).isPlaceholder
      then holeText (v.substitute r).printExpression else (v.substitute r).printExpression := by
  obtain ⟨_, hv, rfl⟩ := Option.map_eq_some_iff.1 h
  obtain ⟨v, hw, rfl⟩ := Option.map_eq_some_iff.1 hv
  exact ⟨v, _, mem_of_value? hw, rfl⟩

/-- The texts of markup variables are bracketed, when the markup that they hold
    has its tags. -/
theorem isBracketed_of_text?
    (hvalues : ∀ p ∈ t, p.2.isTagged = true ∨ p.2.isPlaceholder = true) {w u : Text}
    (h : t.text? w = some u) : u.isBracketed = true := by
  obtain ⟨v, r, hv, rfl⟩ := exists_of_text? h
  split
  · exact Text.isBracketed_holeText _
  · next h =>
    have htagged := (hvalues _ hv).resolve_right fun hv => h (by
      rwa [Node.isPlaceholder, Node.identifier?_substitute])
    exact Node.isBracketed_printExpression (Node.isTagged_substitute htagged)

/-- Markup variables are bracketed when their names have no brackets, and the
    markup that they hold has its tags. -/
theorem bracketed (hnames : ∀ p ∈ t, p.1.isUnbracketed = true)
    (hvalues : ∀ p ∈ t, p.2.isTagged = true ∨ p.2.isPlaceholder = true) : t.Bracketed := by
  refine ⟨fun w u hu => ?_, fun w u hu => isBracketed_of_text? hvalues hu⟩
  obtain ⟨v, r, hv, -⟩ := exists_of_text? hu
  exact hnames _ hv

end MarkupTable

end Unhook
