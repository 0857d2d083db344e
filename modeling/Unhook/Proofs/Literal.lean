import Unhook.Proofs.Capture
import Unhook.Proofs.Placeholder
import Unhook.Proofs.Unfolding

/-!
# Literals in markup

Tags of fragments are taken out of the text of markup and holes in it are replaced
wherever they are read, be it in a literal. But what is taken out or replaced has no
quotes, and brackets at its ends only, so that it reaches neither into a literal nor out
of it. Each literal is changed by itself: it stays as it is if nothing in it reads as a
tag or as a hole that is replaced, and otherwise loses the tag, or has the hole replaced.

* `Text.Encloses`: what stands before and after a literal;
* `Document.finished_enclosed`: a literal is changed by itself;
* `Component.literals_finished`: what becomes of the literals of markup.
-/

namespace Unhook

open Text Block

namespace Text

variable {l r : Text}

/-- Whether a character is a quote. -/
def isQuote (c : Char) : Bool := "'\"`".toList.contains c

/-- Texts between which a literal is written: a quote or a hole ends before it, and a
    quote or a hole begins after it. -/
structure Encloses (l r : Text) : Prop where
  before : l.getLast?.any (fun c => isQuote c || isClosing c) = true
  after : r.head?.any (fun c => isQuote c || isOpening c) = true

theorem Encloses.append (h : Encloses l r) (a b : Text) : Encloses (a ++ l) (r ++ b) := by
  obtain ⟨c, hc, hlast⟩ := (Option.any_eq_true _ _).1 h.before
  obtain ⟨d, hd, hhead⟩ := (Option.any_eq_true _ _).1 h.after
  constructor
  · rw [List.getLast?_append, hc]
    exact hlast
  · rw [List.head?_append, hd]
    exact hhead

/-- A word that has neither quotes nor brackets, but for those at its ends. -/
structure IsSign (p : Text) : Prop extends IsWord p where
  unquoted : p.any isQuote = false

theorem isSign_holeText {x : Text} (hframe : x.any isFrame = false) (hquote : x.any isQuote = false) :
    (holeText x).IsSign where
  toIsWord := isWord_holeText hframe
  unquoted := by
    rw [holeText, List.any_append, List.any_append, hquote]
    rfl

/-- A change of texts that is made in a literal and around it separately. -/
structure Respects (f : Text → Text) : Prop where
  split : ∀ {l r}, Encloses l r → ∀ w, f (l ++ (w ++ r)) = f l ++ (f w ++ f r)
  encloses : ∀ {l r}, Encloses l r → Encloses (f l) (f r)

theorem respects_id : Respects fun t => t := ⟨fun _ _ => rfl, id⟩

theorem Respects.comp {f g : Text → Text} (hf : Respects f) (hg : Respects g) :
    Respects fun t => g (f t) where
  split h w := by rw [hf.split h, hg.split (hf.encloses h)]
  encloses h := hg.encloses (hf.encloses h)

namespace Finds

variable {find : Text → Option (Nat × Text)} {W : Text → Text → Prop}

theorem replace_enclosed (hf : Finds find W) (hW : ∀ p new, W p new → IsSign p)
    (h : Encloses l r) (w : Text) : replaceMatches find 0 (l ++ (w ++ r)) =
      replaceMatches find 0 l ++ (replaceMatches find 0 w ++ replaceMatches find 0 r) := by
  obtain ⟨c, hc, hlast⟩ := (Option.any_eq_true _ _).1 h.before
  obtain ⟨d, hd, hhead⟩ := (Option.any_eq_true _ _).1 h.after
  have hquote (p new : Text) (hp : W p new) := List.any_eq_false.1 (hW p new hp).unquoted
  rw [hf.replace_append fun p new hp => not_straddles_of_last ⟨c, hc, fun hmem => ?_⟩,
    hf.replace_append fun p new hp => not_straddles_of_head ⟨d, hd, fun hmem => ?_⟩]
  · exact (Bool.or_eq_true_iff.1 hhead).elim (hquote p new hp d (List.mem_of_mem_tail hmem))
      (List.any_eq_false.1 (hW p new hp).head d hmem)
  · exact (Bool.or_eq_true_iff.1 hlast).elim (hquote p new hp c ((List.dropLast_prefix p).subset hmem))
      (List.any_eq_false.1 (hW p new hp).last c hmem)

/-- Putting texts in brackets in the place of signs is done in literals and around them
    separately. -/
theorem respects (hf : Finds find W) (hW : ∀ p new, W p new → IsSign p)
    (hnew : ∀ p new, W p new → new.isFramed = true) : Respects (replaceMatches find 0) where
  split h w := hf.replace_enclosed hW h w
  encloses h := by
    have hframed (p new : Text) (hp : W p new) := Bool.and_eq_true_iff.1 (hnew p new hp)
    have hany (f : Char → Bool) {o : Option Char} (ho : o.any f = true) :
        o.any (fun c => isQuote c || f c) = true := by
      obtain ⟨c, hc, hf⟩ := (Option.any_eq_true _ _).1 ho
      exact (Option.any_eq_true _ _).2 ⟨c, hc, Bool.or_eq_true_iff.2 (.inr hf)⟩
    exact ⟨hf.any_getLast? (fun p new hp => hany isClosing (hframed p new hp).2) h.before,
      hf.any_head? (fun p new hp => hany isOpening (hframed p new hp).1) h.after⟩

end Finds

end Text

/-! ### The text of markup -/

namespace Block

variable {blocks : List Block}

theorem respects_expandRounds (hblocks : ∀ b ∈ blocks, b.text.isFramed = true) (n : Nat) :
    Respects (expandRounds blocks n) := by
  have hround : Respects (expandOnce blocks) := by
    have hall : "'\"`".toList.all (fun c => !inMark c) = true := by decide
    refine (finds_hole blocks).respects ?_ ?_
    · rintro p u ⟨ds, i, b, hi, -, rfl, -⟩
      refine isSign_holeText (any_isFrame_mark hi) (List.any_eq_false.2 fun c hc hquote => ?_)
      have hnone := List.all_eq_true.1 hall c (List.contains_iff_mem.1 hquote)
      rw [inMark_of_mem_mark hi hc] at hnone
      cases hnone
    · rintro p u ⟨ds, i, b, -, hb, -, rfl⟩
      exact hblocks b (List.mem_of_getElem? hb)
  induction n with
  | zero => exact respects_id
  | succ n ih => exact hround.comp ih

theorem isFramed_expandRounds (hblocks : ∀ b ∈ blocks, b.text.isFramed = true) (n : Nat) {t : Text}
    (ht : t.isFramed = true) : (expandRounds blocks n t).isFramed = true := by
  induction n generalizing t with
  | zero => exact ht
  | succ n ih => exact ih (isFramed_expandOnce hblocks ht)

end Block

/-- What a text becomes when the holes of blocks are replaced for the given number of
    rounds, and the tags of fragments are taken out. -/
def Document.finished (blocks : List Block) (rounds : Nat) (t : Text) : Text :=
  stripFragments (expandRounds blocks rounds t)

namespace Document

variable {blocks : List Block}

theorem isSign_fragmentTag (p new : Text)
    (h : (∃ tag ∈ fragmentTags, p = tag.toList) ∧ new = []) : p.IsSign := by
  obtain ⟨⟨tag, htag, rfl⟩, -⟩ := h
  have hall : ∀ tag ∈ fragmentTags, tag.toList.tail.any isOpening = false ∧
      tag.toList.dropLast.any isClosing = false ∧ tag.toList.any isQuote = false := by
    decide +kernel
  obtain ⟨hopen, hclose, hquote⟩ := hall tag htag
  exact ⟨⟨hopen, hclose⟩, hquote⟩

theorem finished_of_free (n : Nat) {t : Text} (htags : ∀ tag ∈ fragmentTags, ¬tag.toList <:+: t)
    (hfree : 0 < n → ∀ i b, ¬Shows blocks t i b) : finished blocks n t = t := by
  have hrounds : expandRounds blocks n t = t := by
    cases n with
    | zero => rfl
    | succ n => exact expandRounds_of_free (hfree (Nat.succ_pos n)) _
  rw [finished, hrounds]
  refine finds_fragmentTag.replace_free ?_
  rintro p new ⟨⟨tag, htag, rfl⟩, -⟩
  exact htags tag htag

section

variable (hblocks : ∀ b ∈ blocks, b.text.isFramed = true)

include hblocks

/-- A literal and what is around it are changed separately. -/
theorem finished_enclosed (n : Nat) {l r : Text} (h : Encloses l r) (w : Text) :
    finished blocks n (l ++ (w ++ r)) =
      finished blocks n l ++ (finished blocks n w ++ finished blocks n r) := by
  have hrounds := respects_expandRounds hblocks n
  rw [finished, hrounds.split h]
  exact finds_fragmentTag.replace_enclosed isSign_fragmentTag (hrounds.encloses h) _

theorem finished_around (n : Nat) {u : Text} (hu : u.isFramed = true) (a s : Text) :
    finished blocks n (a ++ (u ++ s)) =
      finished blocks n a ++ (finished blocks n u ++ finished blocks n s) := by
  rw [finished, expandRounds_around hblocks n hu]
  exact finds_fragmentTag.replace_around fun p new hp =>
    (isSign_fragmentTag p new hp).fences (isFramed_expandRounds hblocks n hu)

/-- The tag of a fragment is taken out. -/
theorem finished_tag (n : Nat) {tag : String} (htag : tag ∈ fragmentTags) (a s : Text) :
    finished blocks n (a ++ (tag.toList ++ s)) = finished blocks n a ++ finished blocks n s := by
  obtain ⟨hframed, hreserved, -⟩ := of_mem_fragmentTags htag
  have hnil : finished blocks n tag.toList = [] := by
    rw [finished, expandRounds_of_free fun i b hb => hreserved (infix_of_shows hb)]
    have hword := finds_fragmentTag.replace_word ⟨⟨tag, htag, rfl⟩, rfl⟩ []
    rwa [List.append_nil] at hword
  rw [finished_around hblocks n hframed, hnil, List.nil_append]

/-- The hole of a block is replaced by its text, in which the other rounds go on. -/
theorem finished_hole (n : Nat) {ds : Text} {i : Nat} {b : Block} (hi : toNat? ds = some i)
    (hb : blocks[i]? = some b) (a s : Text) :
    finished blocks (n + 1) (a ++ (holeText (mark ds) ++ s)) =
      finished blocks (n + 1) a ++ (finished blocks n b.text ++ finished blocks (n + 1) s) := by
  have hround := expandOnce_hole hi hb []
  rw [List.append_nil, show expandOnce blocks [] = [] from rfl, List.append_nil] at hround
  have hhole : finished blocks (n + 1) (holeText (mark ds)) = finished blocks n b.text := by
    rw [finished, expandRounds, hround]
    rfl
  rw [finished_around hblocks (n + 1) (isFramed_hole ds), hhole]

end

end Document

/-! ### Markup variables -/

/-- Whether a text has neither brackets nor quotes, as names have none. -/
def Text.isUnmarked (x : Text) : Bool := x.all fun c => !isFrame c && !isQuote c

theorem Text.of_isUnmarked {x : Text} (h : x.isUnmarked = true) :
    x.isUnbracketed = true ∧ (holeText x).IsSign := by
  have hnone (c : Char) (hc : c ∈ x) : isFrame c = false ∧ isQuote c = false := by
    simpa using List.all_eq_true.1 h c hc
  refine ⟨List.all_eq_true.2 fun c hc => ?_, isSign_holeText
    (List.any_eq_false.2 fun c hc => Bool.eq_false_iff.1 (hnone c hc).1)
    (List.any_eq_false.2 fun c hc => Bool.eq_false_iff.1 (hnone c hc).2)⟩
  have hframe := (hnone c hc).1
  simp only [isFrame, isOpening, isClosing, Bool.or_eq_false_iff, decide_eq_false_iff_not] at hframe
  simp [hframe]

namespace MarkupTable

variable {t : MarkupTable}

theorem Bracketed.respects_fillText (ht : t.Bracketed)
    (hnames : ∀ w u, t.text? w = some u → w.isUnmarked = true) (refs : List Text) :
    Respects (t.fillText refs) := by
  induction refs with
  | nil => exact respects_id
  | cons w refs ih =>
    have hstep : Respects (t.fillText [w]) := by
      cases hw : t.text? w with
      | none =>
        rw [funext (fillText_of_text?_eq_none hw)]
        exact respects_id
      | some u =>
        rw [funext fun text => (fillText_of_text? hw text).trans (replaceAll_eq _ u text)]
        exact (finds_replaceAll (holeText_ne_nil w)).respects
          (fun p v hp => hp.1 ▸ (of_isUnmarked (hnames w u hw)).2)
          fun p v hp => hp.2 ▸ isFramed_of_isBracketed (ht.text w u hw)
    exact hstep.comp ih

theorem fillText_of_free {refs : List Text} {w : Text}
    (h : ∀ x ∈ refs, (t.text? x).isSome = true → ¬holeText x <:+: w) : t.fillText refs w = w := by
  induction refs with
  | nil => rfl
  | cons x refs ih =>
    have hx : t.fillText [x] w = w := by
      cases hv : t.text? x with
      | none => exact fillText_of_text?_eq_none hv w
      | some u =>
        rw [fillText_of_text? hv]
        exact replaceAll_of_not_infix (holeText_ne_nil x)
          (h x List.mem_cons_self (Option.isSome_of_eq_some hv))
    rw [fillText_cons, hx]
    exact ih fun y hy => h y (List.mem_cons_of_mem x hy)

end MarkupTable

/-! ### Literals -/

namespace Node

open Printer

/-- The texts of a template as they are written, each with the sign of the hole after it. -/
def templateTexts : List Text → List Node → List Text
  | t :: ts, _ :: ps => (Quoted.keepScript t ++ "$") :: templateTexts ts ps
  | [t], [] => [Quoted.keepScript t]
  | _, _ => []

/-- What the printer writes for the literals that a node is: an attribute string, a string,
    or the texts of a template. -/
def literals : Node → List Text
  | mk (.attributeString raw) _ _ => [raw]
  | mk (.string v halves) _ _ => [Quoted.escape halves 0 v]
  | mk (.template ts) _ ps => templateTexts ts ps
  | _ => []

theorem exists_template {w : Text} {ts : List Text} {ps : List Node} (h : w ∈ templateTexts ts ps)
    (p : Place) {l r : Text} (hl : l.getLast?.any (fun c => isQuote c || isClosing c) = true)
    (hr : r.head?.any (fun c => isQuote c || isOpening c) = true) :
    ∃ l' r', l ++ (template Quoted.keepScript ts (pieces ps) p ++ r) = l' ++ (w ++ r') ∧
      Encloses l' r' := by
  induction ts generalizing ps l with
  | nil => cases ps <;> cases h
  | cons t ts ih =>
    cases ps with
    | nil =>
      cases ts with
      | nil =>
        obtain rfl := List.mem_singleton.1 h
        refine ⟨l, r, ?_, hl, hr⟩
        show l ++ ([t].flatMap Quoted.keepScript ++ r) = _
        rw [List.flatMap_singleton]
      | cons t' ts => cases h
    | cons q ps =>
      rcases List.mem_cons.1 h with rfl | h
      · refine ⟨l, "\x7b".toList ++ (q.piece.text p.fresh ++ ("\x7d".toList ++
          (template Quoted.keepScript ts (pieces ps) p ++ r))), ?_, hl, rfl⟩
        simp [pieces, template]
      · have hclosed : (l ++ (Quoted.keepScript t ++ "$\x7b" ++ q.piece.text p.fresh ++ "\x7d")).getLast? =
            some '\x7d' := by
          rw [← List.append_assoc, List.getLast?_append]
          rfl
        obtain ⟨l', r', htext, henc⟩ := ih h (congrArg (Option.any _) hclosed)
        refine ⟨l', r', ?_, henc⟩
        rw [← htext, List.append_assoc]
        exact congrArg (l ++ ·) (List.append_assoc _ _ r)

/-- The literals of a node stand enclosed wherever it is written. -/
theorem exists_literal {n : Node} {p : Place} {t w : Text} (ht : n.piece.text p <:+: t)
    (h : w ∈ n.literals) : ∃ l r, t = l ++ (w ++ r) ∧ Encloses l r := by
  obtain ⟨a, b, rfl⟩ := ht
  suffices ∃ l r, n.piece.text p = l ++ (w ++ r) ∧ Encloses l r by
    obtain ⟨l, r, htext, henc⟩ := this
    exact ⟨a ++ l, r ++ b, by simp [htext], henc.append a b⟩
  obtain ⟨k, s, ps⟩ := n
  cases k
  case attributeString raw =>
    obtain rfl := List.mem_singleton.1 h
    refine ⟨_, _, List.append_assoc _ _ _, ?_⟩
    split <;> exact ⟨rfl, rfl⟩
  case string v halves =>
    obtain rfl := List.mem_singleton.1 h
    exact ⟨"'".toList, "'".toList ++ [], List.append_assoc _ _ _, rfl, rfl⟩
  case template ts =>
    obtain ⟨l, r, htext, henc⟩ := exists_template h p (l := "`".toList) (r := "`".toList ++ []) rfl rfl
    exact ⟨l, r, (List.append_assoc _ _ _).trans htext, henc⟩
  all_goals cases h

end Node

namespace Component

open Document (finished fragmentTags)

/-- What becomes of the literals of markup. Hypotheses: names have neither brackets nor
    quotes, and markup has its tags. What the printer writes for a literal stands between
    quotes or holes, in the text of what is returned as in the texts of blocks. There

    * markup variables are put into a block in the literal and around it separately, and a
      literal with the hole of a variable that the block records has it replaced;
    * what the markup becomes in the end, it becomes in the literal and around it
      separately, and the texts of the blocks that are put in in turn;
    * a literal is kept that has neither a tag of a fragment nor, in a round to come, the
      hole of a block; but a tag in it is taken out, and such a hole is replaced. -/
theorem literals_finished {options : Options} {source : Text} {c₀ c₂ : Component} {doc : Document}
    (h₀ : compileThrough options [.props, .state, .placement] source = .ok c₀)
    (h₂ : compileThrough options [.props, .state, .placement, .lowering, .hooks] source = .ok c₂)
    (hdoc : compile? options source = .ok doc)
    (hnames : ∀ p ∈ c₂.markupTable, p.1.isUnmarked = true)
    (hvalues : ∀ p ∈ c₂.markupTable, p.2.isTagged = true ∨ p.2.isPlaceholder = true) :
    ∃ e blocks, c₂.inlineMarkup.returned? = some e ∧
      blocks = c₀.shapes.map (fun y => c₂.markupTable.fillBlock y.block) ∧
      doc.markup = finished blocks (blocks.length + 1) e.printExpression ∧
      (∀ n m : Node, n.Displays m → ∀ p t, m.piece.text p <:+: t → ∀ w ∈ n.literals,
        ∃ l r, t = l ++ (w ++ r) ∧ Encloses l r) ∧
      (∀ y ∈ c₀.shapes, ∀ l w r, y.block.text = l ++ (w ++ r) → Encloses l r →
        (c₂.markupTable.fillBlock y.block).text = y.fill c₂.markupTable l ++
          (y.fill c₂.markupTable w ++ y.fill c₂.markupTable r) ∧
        Encloses (y.fill c₂.markupTable l) (y.fill c₂.markupTable r) ∧
        ((∀ x, y.Records x → (c₂.markupTable.value? x).isSome = true → ¬holeText x <:+: w) →
          y.fill c₂.markupTable w = w) ∧
        ∀ a x s, w = a ++ (holeText x ++ s) → y.Records x →
          (c₂.markupTable.value? x).isSome = true → ∃ u, MarkupTable.Stands u ∧
            y.fill c₂.markupTable w = y.fill c₂.markupTable a ++ (u ++ y.fill c₂.markupTable s)) ∧
      ∀ n, (∀ l w r, Encloses l r → finished blocks n (l ++ (w ++ r)) =
          finished blocks n l ++
            (finished blocks n w ++ finished blocks n r)) ∧
        (∀ w, (∀ tag ∈ fragmentTags, ¬tag.toList <:+: w) →
          (0 < n → ∀ i b, ¬Shows blocks w i b) → finished blocks n w = w) ∧
        (∀ a s, ∀ tag ∈ fragmentTags, finished blocks n (a ++ (tag.toList ++ s)) =
          finished blocks n a ++ finished blocks n s) ∧
        ∀ a s ds i b, toNat? ds = some i → blocks[i]? = some b →
          finished blocks (n + 1) (a ++ (holeText (mark ds) ++ s)) =
            finished blocks (n + 1) a ++
              (finished blocks n b.text ++ finished blocks (n + 1) s) := by
  obtain ⟨c, hc, hdoc⟩ := of_bind_eq_ok hdoc
  cases (compileThrough_all h₂).symm.trans hc
  obtain ⟨script, markup, -, hmarkup, rfl⟩ := document_eq_ok hdoc
  obtain ⟨e, he, rfl⟩ := markup_eq_ok hmarkup
  have hblocks := allFramed_inlineMarkup h₀ h₂ hvalues
  have hnamed (w u : Text) (hu : c₂.markupTable.text? w = some u) : w.isUnmarked = true := by
    obtain ⟨v, r, hv, -⟩ := MarkupTable.exists_of_text? hu
    exact hnames _ hv
  have ht := MarkupTable.bracketed (fun p hp => (of_isUnmarked (hnames p hp)).1) hvalues
  have hrespects := ht.respects_fillText hnamed
  refine ⟨e, c₂.inlineMarkup.blocks, he, ?_, rfl, fun n m hm p t ht w hw => ?_,
    fun y hy l w r htext henc => ⟨?_, (hrespects _).encloses henc, fun hfree => ?_, ?_⟩,
    fun n => ⟨fun l w r henc => Document.finished_enclosed hblocks n henc w,
      fun w htags hfree => Document.finished_of_free n htags hfree,
      fun a s tag htag => Document.finished_tag hblocks n htag a s,
      fun a s ds i b hi hb => Document.finished_hole hblocks n hi hb a s⟩⟩
  · exact blocks_inlineMarkup h₀ h₂
  · obtain ⟨p', hinfix⟩ := hm.infix_text p
    exact Node.exists_literal (.trans hinfix ht) hw
  · have hfill := (hrespects y.block.references).split henc w
    rwa [← htext] at hfill
  · refine MarkupTable.fillText_of_free fun x hx hv => hfree x (y.mem_references_iff.1 hx) ?_
    rwa [← c₂.markupTable.isSome_text?]
  · rintro a x s rfl hrecords hv
    obtain ⟨u, hu⟩ := Option.isSome_iff_exists.1 ((c₂.markupTable.isSome_text? x).trans hv)
    exact ⟨_, MarkupTable.stands_fillText_holeText (MarkupTable.standing hvalues)
      (of_isUnmarked (hnamed x u hu)).1 hu (y.mem_references_iff.2 hrecords),
      ht.fillText_append _ (isBracketed_holeText x)⟩

/-- A list whose items show a variable, in markup with an attribute string. -/
def cardSource : Text :=
  "export default () => \x7b const icon = <i/>;
    return <ul title=\"a > b\">\x7bxs.map(x => <li>\x7bicon\x7d</li>)\x7d</ul>; \x7d;"

theorem card_title_kept : ∃ (c₀ c₂ : Component) (doc : Document) (l r : Text),
    compileThrough {} [.props, .state, .placement] cardSource = .ok c₀ ∧
    compileThrough {} [.props, .state, .placement, .lowering, .hooks] cardSource = .ok c₂ ∧
    compile? {} cardSource = .ok doc ∧ c₀.shapes.length = 1 ∧
    (∀ p ∈ c₂.markupTable, p.1.isUnmarked = true) ∧
    (∀ p ∈ c₂.markupTable, p.2.isTagged = true ∨ p.2.isPlaceholder = true) ∧
    doc.markup = l ++ ("a > b".toList ++ r) := by
  have hsource : ((compileThrough {} [.props, .state, .placement] cardSource).toOption.bind
      fun c₀ => ([Pass.lowering, .hooks].foldlM (fun c (p : Pass) => p.run false c) c₀).toOption.bind
        fun c₂ => (compile? {} cardSource).toOption.map fun doc =>
          (c₀.shapes.length, c₂.inlineMarkup.returned?.map (·.printExpression),
            c₂.markupTable.all fun p => p.1.isUnmarked && (p.2.isTagged || p.2.isPlaceholder))) =
      some (1, some ("<ul title=\"".toList ++
        ("a > b".toList ++ "\">\x7b__RAW_BLOCK_0__\x7d</ul>".toList)), true) := by
    rw [(by apply String.toList_ofList : cardSource = _)]
    decide +kernel
  obtain ⟨c₀, h₀, hsource⟩ := of_toOption_bind hsource
  obtain ⟨c₂, h₂, hsource⟩ := of_toOption_bind hsource
  obtain ⟨doc, hdoc, hsource⟩ := of_toOption_map hsource
  obtain ⟨hlength, htext, hvalues⟩ : _ ∧ _ ∧ _ := by simpa only [Prod.mk.injEq] using hsource
  have h₂ := (compileThrough_from h₀ [.lowering, .hooks]).trans h₂
  have hvalue (p : Text × Node) (hp : p ∈ c₂.markupTable) :
      p.1.isUnmarked = true ∧ (p.2.isTagged = true ∨ p.2.isPlaceholder = true) := by
    simpa using List.all_eq_true.1 hvalues p hp
  obtain ⟨e, blocks, he, -, hmarkup, -, -, hfinished⟩ := literals_finished h₀ h₂ hdoc
    (fun p hp => (hvalue p hp).1) fun p hp => (hvalue p hp).2
  obtain ⟨hsplit, hkept, -, -⟩ := hfinished (blocks.length + 1)
  rw [he] at htext
  have htext : e.printExpression = _ := Option.some.inj htext
  rw [htext, hsplit _ _ _ ⟨by decide, by decide⟩, hkept "a > b".toList (by decide)
    fun _ i b hb => absurd (infix_of_shows hb) (by decide)] at hmarkup
  exact ⟨c₀, c₂, doc, _, _, h₀, h₂, hdoc, hlength, fun p hp => (hvalue p hp).1,
    fun p hp => (hvalue p hp).2, hmarkup⟩

/-- An attribute string that reads as the tag of a fragment is lost. -/
theorem title_lost : ((compile? {} "export default () => <p title=\"<>\" />;").toOption.map
    fun doc => doc.markup) = some ("<p title=\"\" />" : Text) := by
  conv in compile? _ _ =>
    arg 2
    apply String.toList_ofList
  decide +kernel

end Component

end Unhook
