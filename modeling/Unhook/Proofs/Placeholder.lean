import Unhook.Proofs.Expansion
import Unhook.Proofs.Lowered
import Unhook.Proofs.Printed

/-!
# Placeholders that are left

A placeholder is replaced when it stands alone in a hole of the markup that is
returned, or of a block that this comes to. Not all of them do: a list becomes a
placeholder wherever it stands, in an operand of `||` as well as in an argument
of a call, statements are written as they are, and markup variables that are
shown by each other can put a block into itself.

* `Component.allFramed_lowerMarkup`, `MarkupTable.isFramed_fillBlock`: the texts
  of blocks begin and end with brackets;
* `Document.infix_stripFragments`: taking out the tags of fragments takes no
  placeholder out;
* `Component.placeholders_left_iff`: which placeholders are left.
-/

namespace Unhook

/-! ### Numbers of placeholders -/

namespace Text

theorem digitsValue_eq (n : Nat) (t : Text) : digitsValue n t = Nat.ofDigitChars 10 t n := by
  induction t generalizing n with
  | nil => rfl
  | cons c t ih =>
    rw [Nat.ofDigitChars_cons, ← ih]
    rfl

/-- The digits that a number is written with read as that number. -/
theorem toNat?_ofNat (n : Nat) : toNat? (ofNat n) = some n := by
  have hdigits : (ofNat n).all isDigit = true := by
    refine List.all_eq_true.2 fun c hc => ?_
    have hc : c.isDigit = true := Nat.isDigit_of_mem_toDigits (by decide) (by decide) hc
    simpa [isDigit, Char.isDigit, Char.le_def] using hc
  have hne : (ofNat n).isEmpty = false := List.isEmpty_eq_false_iff.2 Nat.toDigits_ne_nil
  rw [toNat?, hdigits, hne, digitsValue_eq, ofNat, Nat.ofDigitChars_toDigits (by decide) (by decide)]
  rfl

theorem before?_append (t s : Text) : before? s (t ++ s) = some t := by
  rw [before?, List.reverse_append, Block.after?_eq_some_iff.2 rfl, Option.map_some,
    List.reverse_reverse]

end Text

/-- The name that stands for a block gives its number. -/
theorem Block.index?_placeholder {i : Nat} (h : i < Nat.pow 2 64) :
    index? (placeholder i) = some i := by
  have hafter : Text.after? "__RAW_BLOCK_" (placeholder i) = some (Text.ofNat i ++ "__") :=
    after?_eq_some_iff.2 (List.append_assoc _ _ _)
  have hbetween : Text.between? "__RAW_BLOCK_" "__" (placeholder i) = some (Text.ofNat i) := by
    rw [Text.between?, hafter, Option.bind_some, Text.before?_append]
  rw [index?, Text.numberBetween?, hbetween, Option.bind_some, Text.toNat?_ofNat]
  simp [Option.filter, h]

/-! ### Frames of blocks -/

open Text Block

theorem Text.opens_append_left {a : Text} (h : a.opens = true) (b : Text) :
    (a ++ b).opens = true := by
  cases a with
  | nil => cases h
  | cons c a => exact h

theorem Text.closes_append_right (a : Text) {b : Text} (h : b.closes = true) :
    (a ++ b).closes = true := by
  obtain ⟨c, hc, hclose⟩ := (Option.any_eq_true _ _).1 h
  rw [closes, List.getLast?_append, hc]
  exact hclose

theorem Each.isFramed_text (collection item : Text) (key : Option Text) (body : Text) :
    (Each.text collection item key body).isFramed = true := by
  have hstart : opens ("\x7b#each " ++ collection ++ " as " ++ item) = true :=
    opens_append_left (opens_append_left (opens_append_left (by decide) _) _) _
  refine Bool.and_eq_true_iff.2 ⟨?_, closes_append_right _ (by decide)⟩
  refine opens_append_left (opens_append_left ?_ _) _
  cases key with
  | none => exact opens_append_left hstart _
  | some k => exact opens_append_left (opens_append_left (opens_append_left hstart _) _) _

/-- A choice is written in braces. -/
theorem Choice.isFramed_render {names : List Text} {n : Node} (h : isLowerable names n = true)
    (refs : List Text) : (render names n refs).1.isFramed = true := by
  have hstart (t a : Text) : opens ("\x7b#if " ++ t ++ "\x7d\n" ++ a) = true :=
    opens_append_left (opens_append_left (opens_append_left (by decide) _) _) _
  have hifElse (t a b : Text) : (ifElse t a b).isFramed = true :=
    Bool.and_eq_true_iff.2 ⟨opens_append_left (opens_append_left (opens_append_left (hstart t a) _) _) _,
      closes_append_right _ (by decide)⟩
  have hifOnly (t a : Text) : (ifOnly t a).isFramed = true :=
    Bool.and_eq_true_iff.2 ⟨opens_append_left (hstart t a) _, closes_append_right _ (by decide)⟩
  unfold render
  split
  · rw [if_pos h]
    exact hifElse _ _ _
  · rw [if_pos h]
    exact hifOnly _ _
  · next hconditional hand =>
    unfold isLowerable at h
    split at h
    · exact (hconditional _ _ _ _ rfl).elim
    · exact (hand _ _ _ rfl).elim
    · cases h

/-- Blocks of whose texts `P` is true. -/
def AllTexts (P : Text → Prop) (bs : List Block) : Prop := ∀ b ∈ bs, P b.text

theorem AllTexts.concat {P : Text → Prop} {bs : List Block} (h : AllTexts P bs) {b : Block}
    (hb : P b.text) : AllTexts P (bs ++ [b]) := by
  intro d hd
  rcases List.mem_append.1 hd with hd | hd
  · exact h d hd
  · exact List.mem_singleton.1 hd ▸ hb

/-- What is true of the text of every list, and of the text of every choice. -/
structure OfBlocks (P : Text → Prop) : Prop where
  each : ∀ collection item key body, P (Each.text collection item key body)
  choice : ∀ names n, Choice.isLowerable names n = true → P (Choice.render names n []).1

namespace OfBlocks

variable {P : Text → Prop}

open Node

theorem lowerChoicesList {names : List Text} {a : Bool} {ns : List Node}
    (h : ∀ n ∈ ns, ∀ a bs, AllTexts P bs → AllTexts P (n.lowerChoices names a bs).2)
    {bs : List Block} (hbs : AllTexts P bs) :
    AllTexts P (Node.lowerChoicesList names a ns bs).2 := by
  induction ns generalizing bs with
  | nil => exact hbs
  | cons n ns ih =>
    exact ih (fun m hm => h m (List.mem_cons_of_mem _ hm)) (h n List.mem_cons_self a bs hbs)

theorem lowerChoices (hP : OfBlocks P) (names : List Text) (n : Node) (a : Bool) (bs : List Block)
    (hbs : AllTexts P bs) : AllTexts P (n.lowerChoices names a bs).2 := by
  induction n generalizing a bs with
  | mk k s ps ih =>
    have hps := lowerChoicesList (a := a || k.isAttribute) ih hbs
    rw [lowerChoices_mk]
    dsimp only
    split
    · split
      · next hlower => exact hps.concat (hP.choice names _ (Bool.and_eq_true_iff.1 hlower).2)
      · exact hps
    · exact hps

theorem lowerListsList {names : List Text} {ns : List Node}
    (h : ∀ n ∈ ns, ∀ bs, AllTexts P bs → AllTexts P (n.lowerLists names bs).2)
    {bs : List Block} (hbs : AllTexts P bs) : AllTexts P (Node.lowerListsList names ns bs).2 := by
  induction ns generalizing bs with
  | nil => exact hbs
  | cons n ns ih =>
    exact ih (fun m hm => h m (List.mem_cons_of_mem _ hm)) (h n List.mem_cons_self bs hbs)

theorem lowerLists (hP : OfBlocks P) (names : List Text) (n : Node) (bs : List Block)
    (hbs : AllTexts P bs) : AllTexts P (n.lowerLists names bs).2 := by
  induction n generalizing bs with
  | mk k s ps ih =>
    have hps := lowerListsList ih hbs
    rw [lowerLists_mk]
    dsimp only
    split
    · next b bs' hblock =>
      obtain ⟨-, hblock⟩ := Option.ite_none_right_eq_some.1 hblock
      unfold Each.block? at hblock
      obtain ⟨m, -, hblock⟩ := Option.bind_eq_some_iff.1 hblock
      obtain ⟨item, -, hblock⟩ := Option.bind_eq_some_iff.1 hblock
      obtain ⟨root, -, hblock⟩ := Option.bind_eq_some_iff.1 hblock
      cases hblock
      exact (hP.lowerChoices names _ false _ hps).concat (hP.each _ _ _ _)
    · exact hps

/-- So it is true of the texts of the blocks that markup is lowered to. -/
theorem lowerMarkup (hP : OfBlocks P) {c : Component} (h : c.blocks = []) :
    AllTexts P c.lowerMarkup.blocks := by
  have hlists (names : List Text) (ns : List Node) {bs : List Block} (hbs : AllTexts P bs) :
      AllTexts P (Node.lowerListsList names ns bs).2 :=
    lowerListsList (fun n _ => hP.lowerLists names n) hbs
  have hchoices (names : List Text) (ns : List Node) {bs : List Block} (hbs : AllTexts P bs) :
      AllTexts P (Node.lowerChoicesList names false ns bs).2 :=
    lowerChoicesList (fun n _ => hP.lowerChoices names n) hbs
  have hnil : AllTexts P c.blocks := by
    rw [h]
    exact fun b hb => absurd hb List.not_mem_nil
  exact hchoices _ _ (hchoices _ _ (hlists _ _ (hlists _ _ hnil)))

end OfBlocks

/-- Blocks whose texts are framed. -/
def AllFramed (bs : List Block) : Prop := AllTexts (fun t => t.isFramed = true) bs

/-- The blocks that markup is lowered to are framed. -/
theorem Component.allFramed_lowerMarkup {c : Component} (h : c.blocks = []) :
    AllFramed c.lowerMarkup.blocks :=
  OfBlocks.lowerMarkup (P := fun t => t.isFramed = true)
    ⟨Each.isFramed_text, fun _ _ h => Choice.isFramed_render h []⟩ h

/-! ### Frames that are kept by putting in values -/

theorem Text.isFramed_replaceAll {pat new t : Text} (hpat : pat ≠ []) (hnew : new.isFramed = true)
    (ht : t.isFramed = true) : (replaceAll pat new t).isFramed = true := by
  rw [replaceAll_eq]
  exact (finds_replaceAll hpat).frames (fun p v hp => hp.2 ▸ hnew) ht

theorem MarkupTable.isFramed_fillBlock {t : MarkupTable}
    (ht : ∀ w u, t.text? w = some u → u.isFramed = true) {b : Block}
    (hb : b.text.isFramed = true) : (t.fillBlock b).text.isFramed = true := by
  obtain ⟨text, refs⟩ := b
  induction refs generalizing text with
  | nil => exact hb
  | cons w refs ih =>
    refine ih _ ?_
    dsimp only
    cases hw : t.text? w with
    | none => exact hb
    | some u => exact isFramed_replaceAll (List.cons_ne_nil _ _) (ht w u hw) hb

/-! ### Tags of fragments -/

namespace Document

/-- The tags of fragments are framed, have nothing of the reserved text, and none begins
    another one. -/
theorem of_mem_fragmentTags {tag : String} (h : tag ∈ fragmentTags) :
    isFramed tag.toList = true ∧ ¬reserved <:+: tag.toList ∧
      ∀ tag' ∈ fragmentTags, tag.toList <+: tag'.toList → tag = tag' := by
  have hall : ∀ tag ∈ fragmentTags, isFramed tag.toList = true ∧ ¬reserved <:+: tag.toList ∧
      ∀ tag' ∈ fragmentTags, tag.toList <+: tag'.toList → tag = tag' := by
    decide +kernel
  exact hall tag h

/-- What is recognized as the tag of a fragment. -/
theorem finds_fragmentTag :
    Finds fragmentTag? fun p new => (∃ tag ∈ fragmentTags, p = tag.toList) ∧ new = [] where
  ne_nil := by
    rintro p new ⟨⟨tag, htag, rfl⟩, -⟩ hnil
    have hframed := (of_mem_fragmentTags htag).1
    rw [hnil] at hframed
    cases hframed
  iff t n new := by
    constructor
    · intro h
      obtain ⟨tag, htag, h⟩ := Option.map_eq_some_iff.1 h
      cases h
      have hstarts := List.find?_some htag
      obtain ⟨r, hr⟩ := List.isPrefixOf_iff_prefix.1 hstarts
      exact ⟨_, r, ⟨⟨tag, List.mem_of_find?_eq_some htag, rfl⟩, rfl⟩, hr.symm,
        String.length_toList.symm⟩
    · rintro ⟨p, r, ⟨⟨tag, htag, rfl⟩, rfl⟩, rfl, rfl⟩
      obtain ⟨tag', htag'⟩ : ∃ tag', fragmentTags.find?
          (fun g => Text.startsWith (tag.toList ++ r) g.toList) = some tag' := by
        rw [← Option.isSome_iff_exists, List.find?_isSome]
        exact ⟨tag, htag, List.isPrefixOf_iff_prefix.2 (List.prefix_append _ r)⟩
      have hmem := List.mem_of_find?_eq_some htag'
      have hstarts := List.find?_some htag'
      have hprefix : tag'.toList <+: tag.toList ++ r := List.isPrefixOf_iff_prefix.1 hstarts
      -- Of two tags that a text begins with, one begins the other.
      obtain rfl : tag' = tag :=
        (List.prefix_or_prefix_of_prefix hprefix (List.prefix_append _ r)).elim
          ((of_mem_fragmentTags hmem).2.2 tag htag)
          fun h => ((of_mem_fragmentTags htag).2.2 tag' hmem h).symm
      rw [fragmentTag?, htag', String.length_toList]
      rfl

/-- To show something of a text and what it is without the tags of fragments, it is
    enough to show it of a text without tags, and of one with a first tag from
    what follows. -/
theorem stripFragments_induction {motive : Text → Text → Prop} (refl : ∀ t, motive t t)
    (tag : ∀ (a : Text) (tag : String) (s r : Text), tag ∈ fragmentTags → motive s r →
      motive (a ++ (tag.toList ++ s)) (a ++ r)) (t : Text) : motive t (stripFragments t) := by
  refine finds_fragmentTag.induction (fun t _ => refl t) ?_ t
  rintro a p new s r - ⟨⟨g, hg, rfl⟩, rfl⟩ ih
  exact tag a g s r hg ih

/-- Without the tags of fragments a text still has the reserved text. -/
theorem infix_stripFragments {t : Text} (h : reserved <:+: t) : reserved <:+: stripFragments t := by
  revert h
  refine stripFragments_induction (motive := fun t r => reserved <:+: t → reserved <:+: r)
    (fun _ => id) (fun a tag s r htag ih h => ?_) t
  obtain ⟨hframed, hnone, -⟩ := of_mem_fragmentTags htag
  rcases (isWord_reserved.fences hframed).infix_iff.1 h with h | h | h
  · exact h.trans (List.prefix_append a r).isInfix
  · exact (hnone h).elim
  · exact (ih h).trans (List.suffix_append a r).isInfix

/-- Without the tags of fragments a text has the reserved text only if it had it
    before, or if a tag stands within what reads as it. -/
theorem infix_of_infix_stripFragments {t : Text} (h : reserved <:+: stripFragments t) :
    reserved <:+: t ∨ ∃ c ∈ reserved, ∃ tag ∈ fragmentTags, c :: tag.toList <:+: t := by
  revert h
  refine stripFragments_induction (motive := fun t r => reserved <:+: r →
    reserved <:+: t ∨ ∃ c ∈ reserved, ∃ tag ∈ fragmentTags, c :: tag.toList <:+: t)
    (fun _ => .inl) (fun a tag s r htag ih h => ?_) t
  have hrest : s <:+: a ++ (tag.toList ++ s) :=
    ((List.suffix_append tag.toList s).trans (List.suffix_append a _)).isInfix
  rcases infix_append_cases h with h | h | ⟨x, y, hx, -, hreserved, ⟨b, rfl⟩, -⟩
  · exact .inl (h.trans (List.prefix_append a _).isInfix)
  · rcases ih h with h | ⟨c, hc, tag', htag', h⟩
    · exact .inl (h.trans hrest)
    · exact .inr ⟨c, hc, tag', htag', h.trans hrest⟩
  · -- The tag comes after the last character of what stands before it.
    refine .inr ⟨x.getLast hx, ?_, tag, htag, b ++ x.dropLast, s, ?_⟩
    · rw [hreserved]
      exact List.mem_append_left _ (List.getLast_mem hx)
    · have hlast := List.dropLast_append_getLast hx
      calc b ++ x.dropLast ++ x.getLast hx :: tag.toList ++ s
          = b ++ (x.dropLast ++ [x.getLast hx]) ++ (tag.toList ++ s) := by simp
        _ = b ++ x ++ (tag.toList ++ s) := by rw [hlast]

end Document

/-! ### Statements -/

/-- Markup, and names that stand for blocks of it. A hole may hold either. -/
def Content.rendered : Content where
  isKind
    | .element | .fragment => true
    | .identifier x => (Block.index? x).isSome
    | _ => false
  mayStand
    | .shown | .branch | .hole => true
    | _ => false

theorem Content.lifts_rendered : rendered.Lifts where
  skeleton k := by
    cases k with
    | identifier x => exact lifts_placeholder.skeleton (.identifier x)
    | _ => rfl
  shows names n h := by
    obtain ⟨k, s, ps⟩ := n
    cases k with
    | identifier x => exact lifts_placeholder.shows names (.mk (.identifier x) s ps) h
    | element | fragment => rfl
    | _ => cases h
  branch _ := rfl
  hole _ _ _ := rfl
  index _ h := h
  spots spot h := lifts_placeholder.spots spot h

namespace Node

mutual

/-- Whether the holes of a tree stand in its markup. -/
def keepsHoles : Node → Bool
  | mk k s ps => (mk k s ps).isMarkup || k ≠ .container && allKeepHoles ps

/-- Whether the holes of some trees stand in their markup. -/
def allKeepHoles : List Node → Bool
  | [] => true
  | n :: ns => keepsHoles n && allKeepHoles ns

end

theorem allKeepHoles_eq (ns : List Node) : allKeepHoles ns = ns.all keepsHoles := by
  induction ns with
  | nil => rfl
  | cons n ns ih => rw [allKeepHoles, ih, List.all_cons]

/-- Where no markup and no placeholder may stand there is none, if holes stand in
    markup. -/
theorem not_isMarkupValue_of_fits {n : Node} (h : n.fits .rendered false .expression = true)
    (hn : n.keepsHoles = true) : n.any isMarkupValue = false := by
  induction n with
  | mk k s ps ih =>
    have hk : Content.rendered.isKind k = false :=
      isKind_of_fits Content.lifts_rendered h (by simp)
    have hvalue : (mk k s ps).isMarkupValue = false := by
      cases k with
      | identifier x => exact hk
      | element | fragment => cases hk
      | _ => rfl
    obtain ⟨hmarkup, -⟩ := Bool.or_eq_false_iff.1 hvalue
    rw [keepsHoles, hmarkup, Bool.false_or, Bool.and_eq_true, allKeepHoles_eq] at hn
    rw [any_mk, hvalue, Bool.false_or, anyList_eq, List.any_eq_false]
    intro p hp
    obtain ⟨j, hj⟩ := List.getElem?_of_mem hp
    have hfits := fitsList_iff.1 (fits_mk.1 h).2 j p hj
    -- Neither markup nor a hole is around the part.
    have hspot : Spot.expression.part false k (ps.map kind) (0 + j) = .expression := by
      refine (part_of_not_isMarkup (.inl rfl) hmarkup _ _).resolve_right fun hole => ?_
      exact of_decide_eq_true hn.1 (part_eq_hole hole).1
    rw [hspot] at hfits
    simpa using ih p hp hfits (List.all_eq_true.1 hn.2 p hp)

end Node

namespace Component

theorem allFramed_inlineMarkup {options : Options} {source : Text} {c₀ c₂ : Component}
    (h₀ : compileThrough options [.props, .state, .placement] source = .ok c₀)
    (h₂ : compileThrough options [.props, .state, .placement, .lowering, .hooks] source = .ok c₂)
    (hvalues : ∀ p ∈ c₂.markupTable, p.2.isTagged = true ∨ p.2.isPlaceholder = true) :
    AllFramed c₂.inlineMarkup.blocks := by
  intro b hb
  obtain ⟨b', hb', rfl⟩ := List.mem_map.1 hb
  rw [(hooked_eq_ok h₀ h₂).2.2, ← lowerMarkup_blocks] at hb'
  exact MarkupTable.isFramed_fillBlock
    (fun w u hu => isFramed_of_isBracketed (MarkupTable.isBracketed_of_text? hvalues hu))
    (allFramed_lowerMarkup (placed_eq_ok h₀).1 b' hb')

/-- Lowering leaves each placeholder alone in a hole, as a part of markup or as
    the value of a variable, in all statements and in what blocks are written from,
    if and only if the lists of the component before it, `c₀`, can be lifted. Where
    they can be, the placeholders in what the compiled component returns stand
    so; and where all markup can be, its statements have neither placeholders
    nor markup, if their holes stand in markup. The markup is the expansion of
    what is returned, without the tags of fragments, and the expansion has the
    reserved text if and only if what is returned, or a block that it comes to,
    has it outside holes of blocks, or it comes to a block that is shown within
    itself. Tags take none of it out, and put none in unless one follows a
    character of the reserved text. Hypotheses: numbers of blocks fit into 64
    bits, and markup has its tags. -/
theorem placeholders_left_iff {options : Options} {source : Text} {c₀ c₂ : Component}
    (h₀ : compileThrough options [.props, .state, .placement] source = .ok c₀)
    (h₂ : compileThrough options [.props, .state, .placement, .lowering, .hooks] source = .ok c₂)
    (hnumbers : c₀.shapes.length ≤ Nat.pow 2 64)
    (hvalues : ∀ p ∈ c₂.markupTable, p.2.isTagged = true ∨ p.2.isPlaceholder = true) :
    compileThrough options Pass.all source = .ok c₂.inlineMarkup ∧
    (c₀.liftable .placeholder = true ↔ (∀ x ∈ c₀.shapes, x.fits .placeholder = true) ∧
      c₀.lowerMarkup.fits .placeholder false = true) ∧
    (c₀.liftable .placeholder = true → ∀ e, c₂.inlineMarkup.returned? = some e →
      e.fits .placeholder false .shown = true) ∧
    (c₀.liftable .rendered = true →
      ∀ s ∈ c₂.inlineMarkup.module ++ c₂.inlineMarkup.body.dropLast, s.keepsHoles = true →
        s.any Node.isMarkupValue = false) ∧
    ∀ m, c₂.inlineMarkup.markup = .ok m → ∃ e t, c₂.inlineMarkup.returned? = some e ∧
      t = expand c₂.inlineMarkup.blocks e.printExpression ∧ m = Document.stripFragments t ∧
      (reserved <:+: t ↔ Leaks c₂.inlineMarkup.blocks e.printExpression) ∧
      (reserved <:+: t → reserved <:+: m) ∧
      (reserved <:+: m → reserved <:+: t ∨
        ∃ c ∈ reserved, ∃ tag ∈ Document.fragmentTags, c :: tag.toList <:+: t) := by
  obtain ⟨hblocks, -⟩ := placed_eq_ok h₀
  obtain ⟨⟨d, hd, hc₂⟩, -⟩ := hooked_eq_ok h₀ h₂
  have hindex (i : Nat) (hi : i < c₀.shapes.length) :
      (Block.index? (Block.placeholder i)).isSome = true := by
    rw [index?_placeholder (Nat.lt_of_lt_of_le hi hnumbers)]
    rfl
  have hzero : (Block.index? (Block.placeholder 0)).isSome = true := by
    rw [index?_placeholder (by decide)]
    rfl
  have hlift := lowerMarkup_fits_iff Content.lifts_placeholder hblocks
    fun i hi => (hindex i hi).trans hzero.symm
  refine ⟨compileThrough_all h₂, hlift.symm, fun hliftable e he => ?_, fun hliftable s hs hholes => ?_,
    fun m hm => ?_⟩
  · have hfits := fits_hooks Content.lifts_placeholder hd hc₂ (hlift.2 hliftable).2
    exact (fits_inlineMarkup Content.lifts_placeholder hfits fun _ _ _ _ _ => rfl).2 e he
  · have hlift := lowerMarkup_fits_iff Content.lifts_rendered hblocks
      fun i hi => (hindex i hi).trans hzero.symm
    have hfits := fits_hooks Content.lifts_rendered hd hc₂ (hlift.2 hliftable).2
    have hstatements := (fits_inlineMarkup Content.lifts_rendered hfits fun _ _ _ _ _ => rfl).1
    exact Node.not_isMarkupValue_of_fits (hstatements s hs) hholes
  · obtain ⟨e, he, rfl⟩ := markup_eq_ok hm
    exact ⟨e, _, he, rfl, rfl, infix_expand_iff (allFramed_inlineMarkup h₀ h₂ hvalues) _,
      Document.infix_stripFragments, Document.infix_of_infix_stripFragments⟩

/-- A heading that is a variable with a choice, shown by itself and by each item
    of a list with a choice. -/
def listingSource : Text :=
  "export default (\x7b xs, n \x7d) => \x7b
    const t = <h1>\x7bn && <b/>\x7d</h1>;
    return <ul>\x7bt\x7d\x7bxs.map(x => <li>\x7bx ? <i/> : t\x7d</li>)\x7d</ul>;
  \x7d;"

theorem listing_leaves_no_placeholder : ∃ (c₀ c₂ : Component) (m : Text) (e : Node),
    compileThrough {} [.props, .state, .placement] listingSource = .ok c₀ ∧
    compileThrough {} [.props, .state, .placement, .lowering, .hooks] listingSource = .ok c₂ ∧
    c₀.shapes.length = 3 ∧
    (∀ p ∈ c₂.markupTable, p.2.isTagged = true ∨ p.2.isPlaceholder = true) ∧
    c₀.liftable .placeholder = true ∧ c₀.liftable .rendered = true ∧
    c₂.inlineMarkup.markup = .ok m ∧ c₂.inlineMarkup.returned? = some e ∧
    e.fits .placeholder false .shown = true ∧
    ¬Leaks c₂.inlineMarkup.blocks e.printExpression := by
  have hsource : ((compileThrough {} [.props, .state, .placement] listingSource).toOption.bind
      fun c₀ => ([Pass.lowering, .hooks].foldlM (fun c (p : Pass) => p.run false c) c₀).toOption.bind
        fun c₂ => c₂.inlineMarkup.markup.toOption.map fun m =>
          ([c₀.liftable .placeholder, c₀.liftable .rendered,
            c₂.markupTable.all fun p => p.2.isTagged || p.2.isPlaceholder,
            !decide (reserved <:+: m)], c₀.shapes.length)) =
      some ([true, true, true, true], 3) := by
    rw [(by apply String.toList_ofList : listingSource = _)]
    decide +kernel
  obtain ⟨c₀, h₀, hsource⟩ := of_toOption_bind hsource
  obtain ⟨c₂, h₂, hsource⟩ := of_toOption_bind hsource
  obtain ⟨m, hm, hsource⟩ := of_toOption_map hsource
  simp only [Prod.mk.injEq, List.cons.injEq] at hsource
  obtain ⟨⟨hlists, hmarkup, htags, hfree, -⟩, hlength⟩ := hsource
  have h₂ := (compileThrough_from h₀ [.lowering, .hooks]).trans h₂
  have hvalues : ∀ p ∈ c₂.markupTable, p.2.isTagged = true ∨ p.2.isPlaceholder = true :=
    fun p hp => Bool.or_eq_true_iff.1 (List.all_eq_true.1 htags p hp)
  obtain ⟨-, -, hreturned, -, hleft⟩ := placeholders_left_iff h₀ h₂ (by rw [hlength]; decide) hvalues
  obtain ⟨e, t, he, -, -, hleaks, hkept, -⟩ := hleft m hm
  have hfree : ¬reserved <:+: m := of_decide_eq_false (by simpa using hfree)
  exact ⟨c₀, c₂, m, e, h₀, h₂, hlength, hvalues, hlists, hmarkup, hm, he, hreturned hlists e he,
    fun h => hfree (hkept (hleaks.2 h))⟩

/-- A list in an operand of `||` leaves its placeholder in the markup. -/
theorem list_in_operand_leaves_placeholder :
    ((compileThrough {} Pass.all
        "export default (\x7b a, xs \x7d) => <ul>\x7ba || xs.map(x => <li/>)\x7d</ul>;"
        ).toOption.bind fun c => c.markup.toOption) =
      some ("<ul>\x7ba || __RAW_BLOCK_0__\x7d</ul>" : Text) := by
  conv =>
    enter [1, 1, 1, 3]
    apply String.toList_ofList
  decide +kernel

-- Variables that are shown by each other put a block into itself.
example : ((compileThrough {} Pass.all
    "export default (\x7b c \x7d) => \x7b let a = <p>\x7bc && a\x7d</p>; return <b>\x7ba\x7d</b>; \x7d;"
      ).toOption.bind fun c => c.markup.toOption.map fun m => decide (reserved <:+: m)) =
    some true := by
  conv =>
    enter [1, 1, 1, 3]
    apply String.toList_ofList
  decide +kernel

end Component

end Unhook
