import Unhook.Proofs.Emitted
import Unhook.Proofs.Passes

/-!
# Markup that is lowered completely

A tree is *plain* when it has no markup, and *tidy* when its markup is reached
from the root through markup only, never through the expression of a hole or
the value of an attribute. Of a compiled component the statements should be
plain and what is returned tidy.

Lowering achieves that for markup that it takes from where it stands, and for no
other: markup in an operand of `||`, in an argument of a call or in a function
that renders no list is accepted and left there.
-/

namespace Unhook

namespace Node

/-- Whether a tree has no markup. -/
def isPlain (n : Node) : Bool := !n.any isMarkup

mutual

/-- Whether the markup of a tree is reached from its root through markup
    only. -/
def isTidy : Node → Bool
  | mk k s ps => if (mk k s ps).isMarkup then allTidy ps else !anyList isMarkup ps

/-- Whether the markup of some trees is reached from their roots through markup
    only. -/
def allTidy : List Node → Bool
  | [] => true
  | n :: ns => isTidy n && allTidy ns

end

theorem isKind_markup (n : Node) : Content.markup.isKind n.kind = n.isMarkup := by
  obtain ⟨k, s, ps⟩ := n
  cases k <;> rfl

theorem fitsList_markup_eq {spots : Nat → Spot} {i : Nat} {ns : List Node}
    (h : ∀ n ∈ ns, ∀ j, n.fits .markup false (spots j) = n.isPlain) :
    fitsList .markup false spots i ns = !anyList isMarkup ns := by
  induction ns generalizing i with
  | nil => rfl
  | cons n ns ih =>
    rw [fitsList, h n List.mem_cons_self, ih fun m hm => h m (List.mem_cons_of_mem _ hm), isPlain,
      anyList, Bool.not_or]

/-- Of parts of what is no markup none may be markup. -/
theorem part_of_not_isMarkup {spot : Spot}
    (hs : spot = .expression ∨ spot = .hole ∨ spot = .shown) {n : Node} (hn : n.isMarkup = false)
    (ks : List Kind) (i : Nat) : spot.part false n.kind ks i = .expression ∨
      spot.part false n.kind ks i = .hole := by
  obtain ⟨k, s, ps⟩ := n
  rw [kind_mk]
  unfold Spot.part
  split
  case h_1 | h_2 => cases hn
  all_goals rcases hs with rfl | rfl | rfl <;> simp

/-- Markup fits where none may stand if there is none. -/
theorem fits_markup_eq_isPlain {spot : Spot} (hs : spot = .expression ∨ spot = .hole) (n : Node) :
    n.fits .markup false spot = n.isPlain := by
  induction n generalizing spot with
  | mk k s ps ih =>
    have hspot : Content.markup.mayStand spot = false := by rcases hs with rfl | rfl <;> rfl
    have hk := isKind_markup (mk k s ps)
    rw [kind_mk] at hk
    rw [fits, hspot, hk, isPlain, any_mk, Bool.or_false]
    cases hn : (mk k s ps).isMarkup with
    | true => rfl
    | false =>
      rw [Bool.false_and, fitsList_markup_eq]
      · rfl
      · intro n hm j
        exact ih n hm (part_of_not_isMarkup (hs.imp_right .inl) hn _ j)

/-- Markup fits where it is shown if it is reached through markup only. -/
theorem fits_markup_eq_isTidy (n : Node) : n.fits .markup false .shown = n.isTidy := by
  induction n with
  | mk k s ps ih =>
    have hall (i : Nat) : fitsList .markup false (fun _ => .shown) i ps = allTidy ps := by
      induction ps generalizing i with
      | nil => rfl
      | cons p ps ihps =>
        rw [fitsList, allTidy, ih p List.mem_cons_self,
          ihps fun n hn => ih n (List.mem_cons_of_mem _ hn)]
    have hk := isKind_markup (mk k s ps)
    rw [kind_mk] at hk
    rw [fits, hk, isTidy]
    cases hn : (mk k s ps).isMarkup with
    | true =>
      cases k with
      | element | fragment => exact hall 0
      | _ => cases hn
    | false =>
      rw [Bool.false_and, fitsList_markup_eq]
      · rfl
      · intro n hm j
        exact fits_markup_eq_isPlain (part_of_not_isMarkup (.inr (.inr rfl)) hn _ j) n

end Node

/-- Whether the markup of a choice is reached through its branches, and from
    there through markup only. -/
def Choice.isTidy : Node → Bool
  | .mk .conditional _ [t, a, b] => t.isPlain && isTidy a && isTidy b
  | .mk (.binary .and) _ [t, a] => t.isPlain && isTidy a
  | n => n.isTidy

/-- Whether the markup of a block is reached from its roots through markup only.
    A block that was there before is a text, of which that is not known. -/
def Shape.isTidy : Shape → Bool
  | given _ => false
  | each _ collection item key root =>
    collection.isPlain && item.isPlain && (key.bind Each.keyExpression?).all (·.isPlain) &&
      root.isTidy
  | choice _ e => Choice.isTidy e

/-- Markup fits into a choice if it is reached through its branches. -/
theorem Choice.fits_markup_eq_isTidy (n : Node) : n.fits .markup false .branch = isTidy n := by
  have hplain (n : Node) : n.fits .markup false .expression = n.isPlain :=
    Node.fits_markup_eq_isPlain (.inl rfl) n
  fun_induction isTidy n with
  | case1 s t a b iha ihb =>
    have hk : Content.markup.isKind .conditional = false := rfl
    simp [Node.fits, Node.fitsList, Spot.part, hk, Kind.isAttribute, hplain, iha, ihb,
      Bool.and_assoc]
  | case2 s t a iha =>
    have hk : Content.markup.isKind (.binary .and) = false := rfl
    simp [Node.fits, Node.fitsList, Spot.part, hk, Kind.isAttribute, hplain, iha]
  | case3 n hconditional hand =>
    obtain ⟨k, s, ps⟩ := n
    have hpart : Spot.branch.part false k (ps.map Node.kind) =
        Spot.shown.part false k (ps.map Node.kind) := by
      have hchoice : k.isChoice (ps.map Node.kind) = false := by
        rw [← Bool.not_eq_true]
        intro hc
        obtain ⟨rfl, t, a, b, rfl⟩ | ⟨rfl, t, a, rfl⟩ := Kind.eq_of_isChoice hc
        · exact hconditional _ _ _ _ rfl
        · exact hand _ _ _ rfl
      rw [Spot.part_of_not_isChoice hchoice (.inl rfl) false false]
      funext i
      unfold Spot.part
      split <;> simp
    rw [← Node.fits_markup_eq_isTidy, Node.fits, Node.fits, hpart]
    rfl

theorem Shape.fits_markup_eq_isTidy (x : Shape) : x.fits .markup = x.isTidy := by
  cases x with
  | given b => rfl
  | each names collection item key root =>
    have hplain (n : Node) : n.fits .markup false .expression = n.isPlain :=
      Node.fits_markup_eq_isPlain (.inl rfl) n
    simp only [fits, isTidy, hplain, Node.fits_markup_eq_isTidy]
  | choice names e => exact Choice.fits_markup_eq_isTidy e

/-! ### Compilation -/

namespace Component

/-- The names that are held of variables whose value is markup. -/
def heldMarkup (c : Component) : List Text :=
  c.heldNames.filter fun x => (c.markupTable.value? x).any Node.isMarkup

/-- A component, made of `c₀`, of which all markup is written out: statements and defaults are
    plain, and what is returned and what blocks are written from are tidy, as are
    the values that are put into holes of blocks. -/
structure WrittenOut (c : Component) (t : MarkupTable) (c₀ : Component) : Prop where
  statements : ∀ s ∈ c.module ++ c.body.dropLast, s.isPlain = true
  returned : ∀ e, c.returned? = some e → e.isTidy = true
  defaults : ∀ f ∈ c.fields, ∀ d, f.default = some d →
    ∃ e ∈ c₀.propDefaults, e.isPlain = true ∧ d = e.printExpression
  blocks : c.blocks = c₀.shapes.map fun x => t.fillBlock x.block
  shapes : ∀ x ∈ c₀.shapes, x.isTidy = true
  values : ∀ x v, t.resolve x = some v → v.isTidy = true

/-- Lowering leaves markup where none may be, in a statement or in what a block
    is written from, if and only if the component before it, `c₀`, has markup
    that cannot be lifted. Where all of it can be, no default of a prop has
    markup, and no hole outside the parts of markup holds a variable whose value
    is markup, the compiled component has all markup written out. -/
theorem markup_lowered_iff_liftable {options : Options} {source : Text} {c₀ c₂ : Component}
    (h₀ : compileThrough options [.props, .state, .placement] source = .ok c₀)
    (h₂ : compileThrough options [.props, .state, .placement, .lowering, .hooks] source = .ok c₂) :
    compileThrough options Pass.all source = .ok c₂.inlineMarkup ∧
    (c₀.liftable .markup = true ↔
      (∀ x ∈ c₀.shapes, x.isTidy = true) ∧ c₀.lowerMarkup.fits .markup false = true) ∧
    (c₀.liftable .markup = true → (∀ e ∈ c₀.propDefaults, e.isPlain = true) → c₂.heldMarkup = [] →
      c₂.inlineMarkup.WrittenOut c₂.markupTable c₀) := by
  obtain ⟨hblocks, hdefaults⟩ := placed_eq_ok h₀
  have hlift := lowerMarkup_fits_iff Content.lifts_markup hblocks (fun _ _ => rfl)
  simp only [Shape.fits_markup_eq_isTidy] at hlift
  refine ⟨compileThrough_all h₂, hlift.symm, fun hliftable hplain hheld => ?_⟩
  obtain ⟨hshapes, hlowered⟩ := hlift.2 hliftable
  obtain ⟨⟨d, hd, hc₂⟩, hfields, hblocks₂⟩ := hooked_eq_ok h₀ h₂
  have hfits := fits_hooks Content.lifts_markup hd hc₂ hlowered
  have hholds : ∀ y ∈ c₂.heldNames, Node.Holds .markup c₂.markupTable.value? y := by
    intro y hy v hv hk
    have hmem : y ∈ c₂.heldMarkup := List.mem_filter.2 ⟨hy, by simpa [hv, ← Node.isKind_markup]⟩
    rw [hheld] at hmem
    cases hmem
  obtain ⟨hstatements, hreturned⟩ := fits_inlineMarkup Content.lifts_markup hfits hholds
  have htable := markupTable_fits Content.lifts_markup hfits hholds
  refine ⟨fun s hs => ?_, fun e he => ?_, fun f hf t ht => ?_, ?_, hshapes, fun x v hv => ?_⟩
  · rw [← Node.fits_markup_eq_isPlain (.inl rfl)]
    exact hstatements s hs
  · rw [← Node.fits_markup_eq_isTidy]
    exact hreturned e he
  · obtain ⟨e, he, ht⟩ := hdefaults f (hfields ▸ hf) t ht
    exact ⟨e, he, hplain e he, ht⟩
  · show c₂.blocks.map _ = _
    rw [hblocks₂, List.map_map]
    rfl
  · rw [← Node.fits_markup_eq_isTidy]
    exact (htable.resolveWithin Content.lifts_markup hv).1

/-- A title that is a variable, above a list that is shown by choice. -/
def menuSource : Text :=
  "export default (\x7b xs, n = 1 \x7d) => \x7b
    const t = <h1>Menu</h1>;
    return <p>\x7bt\x7d\x7bn && <ul>\x7bxs.map(x => <li key=\x7bx\x7d>\x7bx\x7d</li>)\x7d</ul>\x7d</p>;
  \x7d;"

theorem menu_markup_lowered : ∃ c₀ c₂ : Component,
    compileThrough {} [.props, .state, .placement] menuSource = .ok c₀ ∧
    compileThrough {} [.props, .state, .placement, .lowering, .hooks] menuSource = .ok c₂ ∧
    c₀.liftable .markup = true ∧ (∀ e ∈ c₀.propDefaults, e.isPlain = true) ∧ c₂.heldMarkup = [] ∧
    c₀.shapes.length = 2 ∧ c₂.inlineMarkup.WrittenOut c₂.markupTable c₀ := by
  have hsource : ((compileThrough {} [.props, .state, .placement] menuSource).toOption.bind
      fun c₀ => ([Pass.lowering, .hooks].foldlM (fun c (p : Pass) => p.run false c) c₀).toOption.bind
        fun c₂ => if c₀.liftable .markup then
          some (c₀.propDefaults.all (·.isPlain), c₂.heldMarkup, c₀.shapes.length) else none) =
      some (true, [], 2) := by
    rw [(by apply String.toList_ofList : menuSource = _)]
    decide +kernel
  obtain ⟨c₀, h₀, hsource⟩ := of_toOption_bind hsource
  obtain ⟨c₂, h₂, hsource⟩ := of_toOption_bind hsource
  obtain ⟨hlift, hsource⟩ := Option.ite_none_right_eq_some.1 hsource
  obtain ⟨hplain, hheld, hlength⟩ : _ ∧ _ ∧ _ := by
    simpa only [Option.some.injEq, Prod.mk.injEq] using hsource
  have h₂ := (compileThrough_from h₀ [.lowering, .hooks]).trans h₂
  have hplain : ∀ e ∈ c₀.propDefaults, e.isPlain = true := List.all_eq_true.1 hplain
  exact ⟨c₀, c₂, h₀, h₂, hlift, hplain, hheld, hlength,
    (markup_lowered_iff_liftable h₀ h₂).2.2 hlift hplain hheld⟩

/-- Markup in an operand of `||` is accepted, and left in the hole. -/
theorem or_operand_keeps_markup :
    ((compileThrough {} Pass.all "export default (\x7b a \x7d) => <div>\x7ba || <b/>\x7d</div>;"
        ).toOption.bind fun c => c.returned?.map fun e => (e.isTidy, c.markup.toOption)) =
      some (false, some ("<div>\x7ba || <b />\x7d</div>" : Text)) := by
  decide +kernel

end Component

end Unhook
