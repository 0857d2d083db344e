import Unhook.Proofs.Expansion
import Unhook.Proofs.Passes
import Unhook.Proofs.Recorded

/-!
# Names that lists bind

A markup variable is put into the text of a list by its name, wherever the text has
a hole that holds the name, and without looking at what the list binds. So an item
that has the name of a markup variable is replaced by the variable, if the list
records it; and it is the name alone that decides.

Texts are put in one after the other. As they are in brackets, and so are holes, what
is put into a text around a hole is put in on its left and on its right alone
(`MarkupTable.fillText_append`).

* `Text.Fences.replaceAll_append`: replacement around a fenced text;
* `MarkupTable.fillText_holeText_iff`: which holes are left as they are;
* `Node.HasHole.infix_text`: the holes of markup are written as holes;
* `Component.item_hole_kept_iff`: what becomes of a hole that holds an item.
-/

namespace Unhook

namespace Text

variable {pat new a b u : Text}

/-! ### Replacement around texts -/

/-- Around a fenced text, replacement is replacement in each of the three pieces. -/
theorem Fences.replaceAll_append (hpat : pat ≠ []) (h : Fences pat u) :
    replaceAll pat new (a ++ (u ++ b)) =
      replaceAll pat new a ++ (replaceAll pat new u ++ replaceAll pat new b) := by
  simp only [replaceAll_eq]
  exact (finds_replaceAll hpat).replace_around fun p v hp => hp.1 ▸ h

theorem replaceAll_of_not_infix (hpat : pat ≠ []) (h : ¬pat <:+: u) : replaceAll pat new u = u := by
  rw [replaceAll_eq]
  exact (finds_replaceAll hpat).replace_free fun p v hp => hp.1 ▸ h

theorem replaceAll_self (hpat : pat ≠ []) : replaceAll pat new pat = new := by
  have h := (@finds_replaceAll pat new hpat).replace_word ⟨rfl, rfl⟩ []
  rwa [List.append_nil, ← replaceAll_eq, replaceMatches, List.append_nil] at h

/-- What is in brackets stays in brackets when bracketed texts are put into it. -/
theorem isBracketed_replaceAll (hpat : pat ≠ []) (hnew : new.isBracketed = true)
    (hu : u.isBracketed = true) : (replaceAll pat new u).isBracketed = true := by
  rw [replaceAll_eq]
  exact (finds_replaceAll hpat).frames (fun p v hp => hp.2 ▸ hnew) hu

end Text

/-! ### Names of blocks -/

/-- The name of a block has no brackets. -/
theorem Block.isUnbracketed_of_index? {x : Text} (h : (index? x).isSome = true) :
    x.isUnbracketed = true := by
  obtain ⟨i, hi⟩ := Option.isSome_iff_exists.1 h
  obtain ⟨hi, -⟩ := Option.filter_eq_some_iff.1 hi
  obtain ⟨d, hd, hi⟩ := Option.bind_eq_some_iff.1 hi
  obtain ⟨y, hy, hd⟩ := Option.bind_eq_some_iff.1 hd
  obtain ⟨z, hz, rfl⟩ := Option.map_eq_some_iff.1 hd
  have hx : x = "__RAW_BLOCK_".toList ++ (z.reverse ++ "__".toList) := by
    have hz := congrArg List.reverse (Block.after?_eq_some_iff.1 hz)
    rw [List.reverse_reverse, List.reverse_append, List.reverse_reverse] at hz
    rw [Block.after?_eq_some_iff.1 hy, hz]
  have hall : z.reverse.all Text.isDigit = true := by
    have hnot := (Option.ite_none_left_eq_some.1 hi).1
    rw [Bool.or_eq_true, not_or, Bool.not_eq_true', Bool.not_eq_false] at hnot
    exact hnot.2
  have hdigits : Text.isUnbracketed z.reverse = true := by
    refine List.all_eq_true.2 fun c hc => ?_
    have hdigit := List.all_eq_true.1 hall c hc
    rw [Bool.not_eq_true', ← Bool.not_eq_true, List.contains_iff_mem]
    intro hbracket
    simp only [List.mem_cons, List.not_mem_nil, or_false] at hbracket
    rcases hbracket with rfl | rfl | rfl | rfl <;> cases hdigit
  rw [Text.isUnbracketed] at hdigits
  rw [hx, Text.isUnbracketed, List.all_append, List.all_append, hdigits]
  rfl

namespace MarkupTable

variable {t : MarkupTable}

/-! ### Putting variables into texts -/

/-- A text in which the variables `refs` are put in, one after the other. -/
def fillText (t : MarkupTable) (refs : List Text) (text : Text) : Text :=
  (t.fillBlock ⟨text, refs⟩).text

theorem fillText_cons (t : MarkupTable) (w : Text) (refs : List Text) (text : Text) :
    t.fillText (w :: refs) text = t.fillText refs (t.fillText [w] text) := rfl

theorem fillText_of_text? {w u : Text} (h : t.text? w = some u) (text : Text) :
    t.fillText [w] text = Text.replaceAll (holeText w) u text := by
  simp [fillText, fillBlock, h]

theorem fillText_of_text?_eq_none {w : Text} (h : t.text? w = none) (text : Text) :
    t.fillText [w] text = text := by
  simp [fillText, fillBlock, h]

theorem holeText_ne_nil (x : Text) : holeText x ≠ [] := List.cons_ne_nil _ _

/-- Around a text in brackets, variables are put in on the left, in the text, and on the
    right; and the text stays in brackets. -/
theorem Bracketed.fillText_append (ht : t.Bracketed) (refs : List Text) {a u b : Text}
    (hu : u.isBracketed = true) :
    t.fillText refs (a ++ (u ++ b)) =
      t.fillText refs a ++ (t.fillText refs u ++ t.fillText refs b) := by
  induction refs generalizing a u b with
  | nil => rfl
  | cons w refs ih =>
    rw [fillText_cons, fillText_cons _ _ _ a, fillText_cons _ _ _ u, fillText_cons _ _ _ b]
    cases hw : t.text? w with
    | none =>
      simp only [fillText_of_text?_eq_none hw]
      exact ih hu
    | some v =>
      simp only [fillText_of_text? hw]
      rw [(Text.fences_holeText (ht.name w v hw) hu).replaceAll_append (holeText_ne_nil w)]
      exact ih (Text.isBracketed_replaceAll (holeText_ne_nil w) (ht.text w v hw) hu)

/-- Putting in one variable leaves the hole of another name. -/
theorem fillText_holeText_of_ne {x w : Text} (hx : x.isUnbracketed = true)
    (h : w = x → t.text? w = none) : t.fillText [w] (holeText x) = holeText x := by
  cases hw : t.text? w with
  | none => exact fillText_of_text?_eq_none hw _
  | some u =>
    rw [fillText_of_text? hw]
    refine Text.replaceAll_of_not_infix (holeText_ne_nil w) fun hinfix => ?_
    have hnone := h ((Text.holeText_infix_holeText hx).1 hinfix)
    cases hnone.symm.trans hw

/-- A text that stands for a variable: markup, or the hole of a block. -/
inductive Stands : Text → Prop
  | markup {t : Text} : Stands ('<' :: t)
  | block {x : Text} : (Block.index? x).isSome = true → Stands (holeText x)

/-- Variables each of which is written as a text that stands for one. -/
def Standing (t : MarkupTable) : Prop := ∀ w u, t.text? w = some u → Stands u

theorem Stands.fillText (ht : t.Standing) {u : Text} (hu : Stands u) (refs : List Text) :
    Stands (t.fillText refs u) := by
  induction refs generalizing u with
  | nil => exact hu
  | cons w refs ih =>
    rw [fillText_cons]
    refine ih ?_
    cases hw : t.text? w with
    | none => rwa [fillText_of_text?_eq_none hw]
    | some v =>
      cases hu with
      | markup =>
        rw [fillText_of_text? hw]
        exact .markup
      | @block x hx =>
        by_cases hwx : w = x
        · rw [fillText_of_text? hw, hwx, Text.replaceAll_self (holeText_ne_nil x)]
          exact ht w v hw
        · rw [fillText_holeText_of_ne (Block.isUnbracketed_of_index? hx) (fun h => (hwx h).elim)]
          exact .block hx

theorem Stands.ne_holeText {u x : Text} (hu : Stands u) (hx : Block.index? x = none) :
    u ≠ holeText x := by
  intro h
  cases hu with
  | markup => cases h
  | @block y hy =>
    have hyx : y = x := List.append_cancel_right (List.cons.inj h).2
    rw [hyx, hx] at hy
    cases hy

/-- A hole is replaced by a text that stands for the variable, if the variable is put in. -/
theorem stands_fillText_holeText (ht : t.Standing) {x u : Text} (hx : x.isUnbracketed = true)
    (hu : t.text? x = some u) {refs : List Text} (hmem : x ∈ refs) :
    Stands (t.fillText refs (holeText x)) := by
  induction refs with
  | nil => exact (List.not_mem_nil hmem).elim
  | cons w refs ih =>
    rw [fillText_cons]
    by_cases hwx : w = x
    · rw [hwx, fillText_of_text? hu, Text.replaceAll_self (holeText_ne_nil x)]
      exact (ht x u hu).fillText ht refs
    · rw [fillText_holeText_of_ne hx (fun h => (hwx h).elim)]
      exact ih ((List.mem_cons.1 hmem).resolve_left (Ne.symm hwx))

/-- Otherwise it is left. -/
theorem fillText_holeText {x : Text} (hx : x.isUnbracketed = true) {refs : List Text}
    (h : x ∈ refs → t.text? x = none) : t.fillText refs (holeText x) = holeText x := by
  induction refs with
  | nil => rfl
  | cons w refs ih =>
    rw [fillText_cons, fillText_holeText_of_ne hx fun hw => hw ▸ h (hw ▸ List.mem_cons_self)]
    exact ih fun hmem => h (List.mem_cons_of_mem _ hmem)

/-- The hole of a name that is not that of a block is left as it is if and only if no
    variable of this name is put in. -/
theorem fillText_holeText_iff (ht : t.Standing) {x : Text} (hx : x.isUnbracketed = true)
    (hblock : Block.index? x = none) (refs : List Text) :
    t.fillText refs (holeText x) = holeText x ↔ ¬(x ∈ refs ∧ (t.text? x).isSome = true) := by
  constructor
  · rintro h ⟨hmem, hu⟩
    obtain ⟨u, hu⟩ := Option.isSome_iff_exists.1 hu
    exact (stands_fillText_holeText ht hx hu hmem).ne_holeText hblock h
  · intro h
    refine fillText_holeText hx fun hmem => ?_
    by_contra hu
    exact h ⟨hmem, Option.isSome_iff_ne_none.2 hu⟩

theorem isSome_text? (t : MarkupTable) (x : Text) : (t.text? x).isSome = (t.value? x).isSome := by
  rw [text?, Option.isSome_map, resolve, resolveWithin, if_neg (by simp), Option.isSome_map]

end MarkupTable

namespace Node

variable {n : Node} {x : Text}

open Printer

theorem printExpression_of_identifier? (h : n.identifier? = some x) : n.printExpression = x := by
  obtain ⟨k, s, ps⟩ := n
  obtain rfl : k = .identifier x := identifier?_eq_some.1 h
  rw [printExpression_eq (by simp)]
  exact List.append_nil x

/-! ### Holes in the text of markup -/

/-- Whether markup has a hole that holds the name `x`, among its children or as the value
    of an attribute, at any depth of elements and fragments. -/
inductive HasHole (x : Text) : Node → Prop
  | hole {s : Span} {e : Node} : e.identifier? = some x → HasHole x (mk .container s [e])
  | child {s : Span} {o p c : Node} {ps : List Node} : c.isAbsent = false → p ∈ ps → HasHole x p →
    HasHole x (mk .element s (o :: (ps ++ [c])))
  | tag {s : Span} {o : Node} {ps : List Node} : HasHole x o → HasHole x (mk .element s (o :: ps))
  | entry {s : Span} {name types a : Node} {as : List Node} : a ∈ as → HasHole x a →
    HasHole x (mk .opening s (name :: types :: as))
  | value {space : Option Text} {name : Text} {s : Span} {v : Node} : v.isAbsent = false →
    HasHole x v → HasHole x (mk (.attribute space name) s [v])
  | part {s : Span} {p : Node} {ps : List Node} : p ∈ ps → HasHole x p → HasHole x (mk .fragment s ps)

/-- Whether `m` stands in markup: in a hole, among its children or as the value of an
    attribute, at any depth of elements, fragments and holes. -/
inductive Displays (m : Node) : Node → Prop
  | self : Displays m m
  | held {s : Span} {e : Node} : Displays m e → Displays m (mk .container s [e])
  | child {s : Span} {o p c : Node} {ps : List Node} : c.isAbsent = false → p ∈ ps → Displays m p →
    Displays m (mk .element s (o :: (ps ++ [c])))
  | tag {s : Span} {o : Node} {ps : List Node} : Displays m o → Displays m (mk .element s (o :: ps))
  | entry {s : Span} {name types a : Node} {as : List Node} : a ∈ as → Displays m a →
    Displays m (mk .opening s (name :: types :: as))
  | value {space : Option Text} {name : Text} {s : Span} {v : Node} : v.isAbsent = false →
    Displays m v → Displays m (mk (.attribute space name) s [v])
  | part {s : Span} {p : Node} {ps : List Node} : p ∈ ps → Displays m p → Displays m (mk .fragment s ps)

/-- What a part is written as stands in what the parts are written as. -/
theorem infix_pieces {q : Node} {ps : List Node} (hq : q ∈ ps) (f : Piece → Text) :
    f q.piece <:+: ((pieces ps).map f).flatten := by
  rw [pieces_eq, List.map_map]
  exact List.infix_of_mem_flatten (List.mem_map_of_mem (f := f ∘ piece) hq)

theorem isAbsent_piece (n : Node) : n.piece.isAbsent = n.isAbsent := by
  cases n
  rfl

/-- What stands in markup is written in its text. -/
theorem Displays.infix_text {m n : Node} (h : Displays m n) (p : Place) :
    ∃ p', m.piece.text p' <:+: n.piece.text p := by
  induction h generalizing p with
  | self => exact ⟨p, List.infix_rfl⟩
  | @held s e _ ih =>
    have htext : (mk .container s [e]).piece.text p =
        "\x7b".toList ++ e.piece.text p.fresh ++ "\x7d".toList := rfl
    refine (ih p.fresh).imp fun p' h => h.trans ?_
    rw [htext]
    exact (List.suffix_append _ _).isInfix.trans (List.prefix_append _ _).isInfix
  | @child s o q c ps hc hq _ ih =>
    have htext : (mk .element s (o :: (ps ++ [c]))).piece.text p =
        markup .element (o.piece :: pieces (ps ++ [c])) p := rfl
    have hchildren := infix_pieces hq (·.text p.fresh)
    refine (ih p.fresh).imp fun p' h => h.trans (hchildren.trans ?_)
    rw [htext]
    delta markup
    dsimp only
    rw [pieces_eq, pieces_eq, List.map_append, List.reverse_append, List.map_singleton,
      List.reverse_singleton, List.singleton_append]
    dsimp only
    rw [isAbsent_piece, hc, if_neg Bool.false_ne_true, List.reverse_reverse]
    exact (List.suffix_append _ _).isInfix.trans (List.prefix_append _ _).isInfix
  | @tag s o ps _ ih =>
    have htext : (mk .element s (o :: ps)).piece.text p =
        markup .element (o.piece :: pieces ps) p := rfl
    refine (ih p.fresh).imp fun p' h => h.trans ?_
    rw [htext]
    delta markup
    dsimp only
    cases (pieces ps).reverse with
    | nil => exact List.infix_rfl
    | cons c children =>
      dsimp only
      split
      · exact (List.prefix_append _ _).isInfix
      · rw [List.append_assoc, List.append_assoc]
        exact (List.prefix_append _ _).isInfix
  | @entry s name types a as ha _ ih =>
    have htext : (mk .opening s (name :: types :: as)).piece.text p =
        "<".toList ++ name.piece.text p.fresh ++
          ((pieces as).map fun a => ' ' :: a.text p.fresh).flatten := rfl
    have hentry := infix_pieces ha fun a => ' ' :: a.text p.fresh
    refine (ih p.fresh).imp fun p' h => (h.trans (List.suffix_cons ' ' _).isInfix).trans ?_
    rw [htext]
    exact hentry.trans (List.suffix_append _ _).isInfix
  | @value space name s v hv _ ih =>
    have htext : (mk (.attribute space name) s [v]).piece.text p =
        given space.isSome (space.getD [] ++ ":".toList) ++ name ++
          v.piece.ifPresent "=".toList p.fresh := rfl
    refine (ih p.fresh).imp fun p' h => h.trans ?_
    rw [htext, Piece.ifPresent, isAbsent_piece, hv, if_neg Bool.false_ne_true]
    exact (List.suffix_append _ _).isInfix.trans (List.suffix_append _ _).isInfix
  | @part s q ps hq _ ih =>
    have htext : (mk .fragment s ps).piece.text p =
        "<>".toList ++ ((pieces ps).map (·.text p.fresh)).flatten ++ "</>".toList := rfl
    refine (ih p.fresh).imp fun p' h => h.trans ((infix_pieces hq (·.text p.fresh)).trans ?_)
    rw [htext]
    exact (List.suffix_append _ _).isInfix.trans (List.prefix_append _ _).isInfix

theorem HasHole.displays (h : HasHole x n) :
    ∃ s e, e.identifier? = some x ∧ Displays (mk .container s [e]) n := by
  induction h with
  | @hole s e he => exact ⟨s, e, he, .self⟩
  | child hc hq _ ih => exact ih.imp fun s => Exists.imp fun e h => ⟨h.1, .child hc hq h.2⟩
  | tag _ ih => exact ih.imp fun s => Exists.imp fun e h => ⟨h.1, .tag h.2⟩
  | entry ha _ ih => exact ih.imp fun s => Exists.imp fun e h => ⟨h.1, .entry ha h.2⟩
  | value hv _ ih => exact ih.imp fun s => Exists.imp fun e h => ⟨h.1, .value hv h.2⟩
  | part hq _ ih => exact ih.imp fun s => Exists.imp fun e h => ⟨h.1, .part hq h.2⟩

/-- The holes of markup are written as holes. -/
theorem HasHole.infix_text (h : HasHole x n) (p : Place) : holeText x <:+: n.piece.text p := by
  obtain ⟨s, ⟨k, se, ps⟩, he, hdisplays⟩ := h.displays
  obtain rfl : k = .identifier x := identifier?_eq_some.1 he
  obtain ⟨p', hinfix⟩ := hdisplays.infix_text p
  have htext : (mk .container s [mk (.identifier x) se ps]).piece.text p' =
      "\x7b".toList ++ (x ++ []) ++ "\x7d".toList := rfl
  rwa [htext, List.append_nil] at hinfix

end Node

/-- Markup variables stand for markup with its tags, or for blocks. -/
theorem MarkupTable.standing {t : MarkupTable}
    (hvalues : ∀ p ∈ t, p.2.isTagged = true ∨ p.2.isPlaceholder = true) : t.Standing := by
  intro w u hu
  obtain ⟨v, r, hv, rfl⟩ := exists_of_text? hu
  split
  · next hblock =>
    obtain ⟨i, hi⟩ := Option.isSome_iff_exists.1 hblock
    obtain ⟨x, hx, hi⟩ := Option.bind_eq_some_iff.1 hi
    rw [Node.printExpression_of_identifier? hx]
    exact .block (Option.isSome_of_eq_some hi)
  · next hblock =>
    have htagged := (hvalues _ hv).resolve_right fun hv => hblock (by
      rwa [Node.isPlaceholder, Node.identifier?_substitute])
    have hhead := (Node.angled_printExpression (Node.isTagged_substitute (r := r) htagged)).1
    obtain ⟨rest, hrest⟩ := List.head?_eq_some_iff.1 hhead
    rw [hrest]
    exact .markup

/-- A text of the block of a shape, with the markup variables of the block put in. -/
def Shape.fill (t : MarkupTable) (y : Shape) (text : Text) : Text :=
  t.fillText y.block.references text

/-- What the block of a shape becomes around a hole, and what becomes of the hole. -/
theorem Shape.fill_hole {t : MarkupTable} (ht : t.Bracketed) (hstanding : t.Standing) (y : Shape)
    {x : Text} (hx : x.isUnbracketed = true) (hblock : Block.index? x = none) :
    (∀ l r, y.block.text = l ++ (holeText x ++ r) →
      (t.fillBlock y.block).text = y.fill t l ++ (y.fill t (holeText x) ++ y.fill t r)) ∧
    (y.fill t (holeText x) = holeText x ↔ ¬(y.Records x ∧ (t.value? x).isSome = true)) ∧
    (y.Records x → (t.value? x).isSome = true → MarkupTable.Stands (y.fill t (holeText x))) := by
  refine ⟨fun l r htext => ?_, ?_, fun hrecords hvalue => ?_⟩
  · have hfill : (t.fillBlock y.block).text = t.fillText y.block.references y.block.text := rfl
    rw [hfill, htext]
    exact ht.fillText_append _ (Text.isBracketed_holeText x)
  · rw [← y.mem_references_iff, ← t.isSome_text?]
    exact MarkupTable.fillText_holeText_iff hstanding hx hblock _
  · rw [← t.isSome_text?] at hvalue
    obtain ⟨u, hu⟩ := Option.isSome_iff_exists.1 hvalue
    exact MarkupTable.stands_fillText_holeText hstanding hx hu (y.mem_references_iff.2 hrecords)

/-- The holes of the markup of a list stand in its block. -/
theorem Shape.exists_hole {names : List Text} {collection item root : Node} {key : Option Node}
    {x : Text} (h : root.HasHole x) :
    ∃ l r, (Shape.each names collection item key root).block.text = l ++ (holeText x ++ r) := by
  have hroot : root.printExpression = root.piece.text { opening := .statement } := by
    refine Node.printExpression_eq fun v r hkind => ?_
    cases h <;> cases hkind
  have hbody : root.printExpression <:+: (Shape.each names collection item key root).block.text :=
    ⟨_, _, rfl⟩
  rw [hroot] at hbody
  obtain ⟨l, r, htext⟩ := (h.infix_text _).trans hbody
  exact ⟨l, r, by rw [← htext, List.append_assoc]⟩

namespace Component

/-- A hole in the block of a list or of a choice stays as it is if and only if the block
    does not record a markup variable of its name, whether or not the list binds the name;
    what stands around it is filled by itself. Otherwise markup, or the hole of a block,
    takes its place. This is so for the holes of the markup of a list that hold an item,
    which all stand in the block of the list. Hypotheses: names have no brackets and markup
    has its tags. -/
theorem item_hole_kept_iff {options : Options} {source : Text} {c₀ c₂ : Component}
    (h₀ : compileThrough options [.props, .state, .placement] source = .ok c₀)
    (h₂ : compileThrough options [.props, .state, .placement, .lowering, .hooks] source = .ok c₂)
    (hnames : ∀ p ∈ c₂.markupTable, p.1.isUnbracketed = true)
    (hvalues : ∀ p ∈ c₂.markupTable, p.2.isTagged = true ∨ p.2.isPlaceholder = true) :
    compileThrough options Pass.all source = .ok c₂.inlineMarkup ∧
    c₂.inlineMarkup.blocks = c₀.shapes.map (fun y => c₂.markupTable.fillBlock y.block) ∧
    (∀ y ∈ c₀.shapes, ∀ x : Text, x.isUnbracketed = true → Block.index? x = none →
      (∀ l r, y.block.text = l ++ (holeText x ++ r) →
        (c₂.markupTable.fillBlock y.block).text = y.fill c₂.markupTable l ++
          (y.fill c₂.markupTable (holeText x) ++ y.fill c₂.markupTable r)) ∧
      (y.fill c₂.markupTable (holeText x) = holeText x ↔
        ¬(y.Records x ∧ (c₂.markupTable.value? x).isSome = true)) ∧
      (y.Records x → (c₂.markupTable.value? x).isSome = true →
        MarkupTable.Stands (y.fill c₂.markupTable (holeText x)))) ∧
    ∀ names collection item key root, .each names collection item key root ∈ c₀.shapes →
      ∀ x ∈ item.names, root.HasHole x →
        ∃ l r, (Shape.each names collection item key root).block.text = l ++ (holeText x ++ r) := by
  refine ⟨compileThrough_all h₂, blocks_inlineMarkup h₀ h₂, fun y _ x hx hblock => ?_,
    fun _ _ _ _ _ _ x _ hhole => ?_⟩
  · exact y.fill_hole (MarkupTable.bracketed hnames hvalues) (MarkupTable.standing hvalues) hx hblock
  · exact Shape.exists_hole hhole

/-- A list that shows its item, also in an attribute, and a markup variable. -/
def iconSource : Text :=
  "export default () => \x7b const icon = <b/>;
    return <ul>\x7bxs.map((\x7bid\x7d) => <li title=\x7bid\x7d>\x7bicon\x7d\x7bid\x7d</li>)\x7d</ul>;
  \x7d;"

theorem icon_item_kept : ∃ (c₀ c₂ : Component) (y : Shape),
    compileThrough {} [.props, .state, .placement] iconSource = .ok c₀ ∧
    compileThrough {} [.props, .state, .placement, .lowering, .hooks] iconSource = .ok c₂ ∧
    (∀ p ∈ c₂.markupTable, p.1.isUnbracketed = true) ∧
    (∀ p ∈ c₂.markupTable, p.2.isTagged = true ∨ p.2.isPlaceholder = true) ∧
    c₀.shapes = [y] ∧ ¬(y.Records "id" ∧ (c₂.markupTable.value? "id").isSome = true) ∧
    (c₂.markupTable.fillBlock y.block).text =
      y.fill c₂.markupTable "\x7b#each xs as \x7b id \x7d\x7d<li title=".toList ++
        (holeText "id" ++ y.fill c₂.markupTable ">\x7bicon\x7d\x7bid\x7d</li>\x7b/each\x7d".toList) := by
  have hsource : ((compileThrough {} [.props, .state, .placement] iconSource).toOption.bind
      fun c₀ => ([Pass.lowering, .hooks].foldlM (fun c (p : Pass) => p.run false c) c₀).toOption.map
        fun c₂ => (c₀.shapes.map (·.block.text), (c₂.markupTable.value? "id").isSome,
          c₂.markupTable.all fun p => p.1.isUnbracketed && (p.2.isTagged || p.2.isPlaceholder))) =
      some (["\x7b#each xs as \x7b id \x7d\x7d<li title=\x7bid\x7d>\x7bicon\x7d\x7bid\x7d</li>\x7b/each\x7d".toList],
        false, true) := by
    rw [(by apply String.toList_ofList : iconSource = _)]
    decide +kernel
  obtain ⟨c₀, h₀, hsource⟩ := of_toOption_bind hsource
  obtain ⟨c₂, h₂, hsource⟩ := of_toOption_map hsource
  obtain ⟨htext, hid, hvalues⟩ : _ ∧ _ ∧ _ := by simpa only [Prod.mk.injEq] using hsource
  obtain ⟨y, hshapes, htext⟩ := List.map_eq_singleton_iff.1 htext
  have h₂ := (compileThrough_from h₀ [.lowering, .hooks]).trans h₂
  have hvalue (p : Text × Node) (hp : p ∈ c₂.markupTable) :
      p.1.isUnbracketed = true ∧ (p.2.isTagged = true ∨ p.2.isPlaceholder = true) := by
    simpa using List.all_eq_true.1 hvalues p hp
  have hkept : ¬(y.Records "id" ∧ (c₂.markupTable.value? "id").isSome = true) := by
    rw [hid]
    exact fun h => Bool.false_ne_true h.2
  obtain ⟨-, -, hholes, -⟩ := item_hole_kept_iff h₀ h₂ (fun p hp => (hvalue p hp).1)
    fun p hp => (hvalue p hp).2
  obtain ⟨hsplit, hiff, -⟩ := hholes y (hshapes ▸ List.mem_singleton_self y) "id" (by decide) (by decide)
  refine ⟨c₀, c₂, y, h₀, h₂, fun p hp => (hvalue p hp).1, fun p hp => (hvalue p hp).2, hshapes,
    hkept, ?_⟩
  simp only [hiff.2 hkept] at hsplit
  exact hsplit _ _ (htext.trans (by decide))

/-- An item is replaced by a markup variable of the same name. -/
theorem item_captured :
    ((compileThrough {} Pass.all
        "export default () => \x7b const x = <b/>;
          return <ul>\x7bxs.map(x => <li>\x7bx\x7d</li>)\x7d</ul>; \x7d;"
      ).toOption.map fun c => c.markup.toOption) =
      some (some ("<ul>\x7b#each xs as x\x7d<li><b /></li>\x7b/each\x7d</ul>" : Text)) := by
  conv in compileThrough _ _ _ =>
    arg 3
    apply String.toList_ofList
  decide +kernel

end Component

end Unhook
