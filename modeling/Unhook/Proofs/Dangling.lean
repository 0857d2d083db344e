import Unhook.Proofs.Passes
import Unhook.Proofs.Recorded
import Unhook.Proofs.Removal

/-!
# References to variables that are removed

Markup variables are removed from a compiled component, whether or not all that
refers to them has been replaced. Two things are not: a reference in a statement
that does not stand alone in a hole, and a hole in the text of a block that does
not record the variable. The latter is the fate of holes within markup that is a
branch of a choice, and of holes of attributes.

* `Component.reference_left_iff`: exactly what is left, for variables that are
  not shown within themselves.
-/

namespace Unhook

namespace MarkupTable

theorem exists_text?_of_mem {t : MarkupTable} {p : Text × Node} (hp : p ∈ t) :
    ∃ u, t.text? p.1 = some u := by
  obtain ⟨v, hv⟩ : ∃ v, t.value? p.1 = some v := by
    rw [← Option.isSome_iff_exists, value?, List.lookup_isSome_iff]
    exact ⟨p, List.mem_reverse.2 hp, beq_self_eq_true _⟩
  exact ⟨_, by rw [text?, resolve, resolveWithin, hv]; rfl⟩

end MarkupTable

namespace Component

/-- When none of its markup variables is shown within itself, a compiled component
    refers to one of them, `x`, where the statements that remain leave a
    reference to it, by themselves or through the values that are put in; and the
    text of a block has a hole that holds `x` where it had one before and what the
    block is written from does not record `x`, or where a value that is put in
    spells one out. Hypotheses: names have no brackets and markup has its tags. -/
theorem reference_left_iff {options : Options} {source : Text} {c₀ c₂ : Component}
    (h₀ : compileThrough options [.props, .state, .placement] source = .ok c₀)
    (h₂ : compileThrough options [.props, .state, .placement, .lowering, .hooks] source = .ok c₂)
    (hacyclic : c₂.markupTable.Acyclic)
    (hnames : ∀ p ∈ c₂.markupTable, p.1.isUnbracketed = true)
    (hvalues : ∀ p ∈ c₂.markupTable, p.2.isTagged = true ∨ p.2.isPlaceholder = true) :
    compileThrough options Pass.all source = .ok c₂.inlineMarkup ∧
    c₂.inlineMarkup.blocks = c₀.shapes.map (fun y => c₂.markupTable.fillBlock y.block) ∧
    ∀ x ∈ c₂.markupTable.map (·.1),
      ((∃ s ∈ c₂.inlineMarkup.module ++ c₂.inlineMarkup.body, s.refers x = true) ↔
        ∃ s ∈ c₂.remaining, c₂.markupTable.Leaves x s) ∧
      ∀ y ∈ c₀.shapes, holeText x <:+: (c₂.markupTable.fillBlock y.block).text ↔
        ¬y.Records x ∧ holeText x <:+: y.block.text ∨ c₂.markupTable.Spells x y.block := by
  refine ⟨compileThrough_all h₂, blocks_inlineMarkup h₀ h₂, fun x hx => ⟨?_, fun y _ => ?_⟩⟩
  · rw [inlineMarkup_statements]
    constructor
    · rintro ⟨_, hmem, hrefers⟩
      obtain ⟨s, hs, rfl⟩ := List.mem_map.1 hmem
      exact ⟨s, hs, hacyclic.refers_substitute_iff.1 hrefers⟩
    · rintro ⟨s, hs, hleaves⟩
      exact ⟨_, List.mem_map_of_mem hs, hacyclic.refers_substitute_iff.2 hleaves⟩
  · obtain ⟨p, hp, rfl⟩ := List.mem_map.1 hx
    obtain ⟨u, hu⟩ := MarkupTable.exists_text?_of_mem hp
    rw [MarkupTable.holeText_infix_fillBlock_iff (MarkupTable.bracketed hnames hvalues) hu,
      y.mem_references_iff]

/-- A variable within another, both shown by the return and by blocks. -/
def boxSource : Text :=
  "export default (\x7b xs, n \x7d) => \x7b
    const i = <i/>, box = <b>\x7bi\x7d</b>;
    return <ul>\x7bbox\x7d\x7bn && i\x7d\x7bxs.map(x => <li>\x7bbox\x7d</li>)\x7d</ul>;
  \x7d;"

theorem box_left_nowhere : ∃ c₀ c₂ : Component,
    compileThrough {} [.props, .state, .placement] boxSource = .ok c₀ ∧
    compileThrough {} [.props, .state, .placement, .lowering, .hooks] boxSource = .ok c₂ ∧
    c₂.markupTable.Acyclic ∧ (∀ p ∈ c₂.markupTable, p.1.isUnbracketed = true) ∧
    (∀ p ∈ c₂.markupTable, p.2.isTagged = true ∨ p.2.isPlaceholder = true) ∧
    c₂.markupTable.map (·.1) = ["i".toList, "box".toList] ∧ c₀.shapes.length = 2 ∧
    (∀ s ∈ c₂.remaining, ¬c₂.markupTable.Leaves "box" s) ∧
    ∀ y ∈ c₀.shapes, holeText "box" <:+: y.block.text → y.Records "box" := by
  have hsource : ((compileThrough {} [.props, .state, .placement] boxSource).toOption.bind
      fun c₀ => ([Pass.lowering, .hooks].foldlM (fun c (p : Pass) => p.run false c) c₀).toOption.map
        fun c₂ => (c₂.markupTable.map (·.1), c₀.shapes.length,
          c₂.markupTable.all fun p => p.1.isUnbracketed && (p.2.isTagged || p.2.isPlaceholder) &&
            p.2.holeNames.all (·.length < p.1.length),
          (c₂.inlineMarkup.module ++ c₂.inlineMarkup.body).all (!·.refers "box"),
          c₂.inlineMarkup.blocks.all fun b => !decide (holeText "box" <:+: b.text))) =
      some (["i".toList, "box".toList], 2, true, true, true) := by
    rw [(by apply String.toList_ofList : boxSource = _)]
    decide +kernel
  obtain ⟨c₀, h₀, hsource⟩ := of_toOption_bind hsource
  obtain ⟨c₂, h₂, hsource⟩ := of_toOption_map hsource
  obtain ⟨htable, hlength, hvalues, hstatements, hblocks⟩ : _ ∧ _ ∧ _ ∧ _ ∧ _ := by
    simpa only [Prod.mk.injEq] using hsource
  have h₂ := (compileThrough_from h₀ [.lowering, .hooks]).trans h₂
  have hvalue (p : Text × Node) (hp : p ∈ c₂.markupTable) :
      (p.1.isUnbracketed = true ∧ (p.2.isTagged = true ∨ p.2.isPlaceholder = true)) ∧
        ∀ z ∈ p.2.holeNames, z.length < p.1.length := by
    simpa using List.all_eq_true.1 hvalues p hp
  have hacyclic : c₂.markupTable.Acyclic :=
    MarkupTable.acyclic_of_rank List.length fun p hp => (hvalue p hp).2
  have hnames : ∀ p ∈ c₂.markupTable, p.1.isUnbracketed = true := fun p hp => (hvalue p hp).1.1
  have htagged : ∀ p ∈ c₂.markupTable, p.2.isTagged = true ∨ p.2.isPlaceholder = true :=
    fun p hp => (hvalue p hp).1.2
  obtain ⟨-, hfilled, hleft⟩ := reference_left_iff h₀ h₂ hacyclic hnames htagged
  obtain ⟨hleaves, hholes⟩ := hleft "box" (htable ▸ by simp)
  refine ⟨c₀, c₂, h₀, h₂, hacyclic, hnames, htagged, htable, hlength, fun s hs h => ?_,
    fun y hy h => Classical.byContradiction fun hrecords => ?_⟩
  · obtain ⟨s, hs, hrefers⟩ := hleaves.2 ⟨s, hs, h⟩
    have hs := List.all_eq_true.1 hstatements s hs
    rw [hrefers] at hs
    cases hs
  · have hhole := (hholes y hy).2 (.inl ⟨hrecords, h⟩)
    rw [hfilled] at hblocks
    have hy := List.all_eq_true.1 hblocks _ (List.mem_map_of_mem hy)
    rw [decide_eq_true hhole] at hy
    cases hy

/-- A hole within markup that is a branch of a choice is left, when the variable
    that it holds is removed. -/
theorem hole_in_branch_left :
    ((compileThrough {} Pass.all
        "export default (\x7b a \x7d) => \x7b const v = <b/>; return <p>\x7ba && <i>\x7bv\x7d</i>\x7d</p>; \x7d;"
        ).toOption.map fun c => (c.body.map Node.kind, c.markup.toOption)) =
      some ([.returnStatement],
        some ("<p>\x7b#if a\x7d\n<i>\x7bv\x7d</i>\n\x7b/if\x7d</p>" : Text)) := by
  conv in compileThrough _ _ _ =>
    arg 3
    apply String.toList_ofList
  decide +kernel

end Component

end Unhook
