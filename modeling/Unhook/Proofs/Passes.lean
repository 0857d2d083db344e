import Unhook.Proofs.Hooks
import Unhook.Proofs.Setter

/-!
# Compilation step by step

What is known of a component between the steps of compilation: before its markup
is lowered it has no blocks, and its props have the defaults that its parameter
gives them; hooks are taken apart in the component that is lowered; and showing
its markup variables is the last step.

* `Component.placed_eq_ok`: what is known before lowering;
* `Component.hooked_eq_ok`: what hooks are taken apart of, and what that leaves;
* `Component.compileThrough_all`: the last step.
-/

namespace Unhook

/-! ### Defaults of props -/

namespace Component

variable {typescript : Bool} {c c' : Component} {options : Options} {source : Text}
  {module : List Node}

/-- The default that a part of the parameter's pattern gives to a prop. -/
def propDefault? : Node → Option Node
  | .mk (.patternProperty _ _) _ [k, .mk .defaultPattern _ [_, d]] => k.keyName?.map fun _ => d
  | _ => none

/-- The defaults that the parameter of a component gives to props. -/
def propDefaults (c : Component) : List Node :=
  match c.params.head?.map Node.pattern with
  | some (.mk .objectPattern _ ps) => ps.filterMap propDefault?
  | _ => []

/-- What binding props can do to a component: it adds props, of which each has
    one of the given defaults or none, and changes nothing else but the body and
    what is known of it. -/
structure BindsFields (defaults : List Node) (c d : Component) : Prop where
  params : d.params = c.params
  module : d.module = c.module
  blocks : d.blocks = c.blocks
  fields : ∀ f ∈ d.fields, f ∈ c.fields ∨
    ∀ t, f.default = some t → ∃ e ∈ defaults, t = e.printExpression

theorem BindsFields.refl (defaults : List Node) (c : Component) : BindsFields defaults c c :=
  ⟨rfl, rfl, rfl, fun _ hf => .inl hf⟩

theorem BindsFields.trans {defaults defaults' : List Node} {c d e : Component}
    (h : BindsFields defaults c d) (h' : BindsFields defaults' d e) :
    BindsFields (defaults ++ defaults') c e := by
  refine ⟨h'.params.trans h.params, h'.module.trans h.module, h'.blocks.trans h.blocks,
    fun f hf => ?_⟩
  rcases h'.fields f hf with hf | hf
  · refine (h.fields f hf).imp_right fun hf t ht => ?_
    obtain ⟨e, he, ht⟩ := hf t ht
    exact ⟨e, List.mem_append_left _ he, ht⟩
  · refine .inr fun t ht => ?_
    obtain ⟨e, he, ht⟩ := hf t ht
    exact ⟨e, List.mem_append_right _ he, ht⟩

theorem addField_bindsFields {defaults : List Node} (c : Component) {f : Field}
    (hf : ∀ t, f.default = some t → ∃ e ∈ defaults, t = e.printExpression) :
    BindsFields defaults c (c.addField f) := by
  unfold addField
  split
  · exact ⟨rfl, rfl, rfl, fun _ hf => .inl hf⟩
  · refine ⟨rfl, rfl, rfl, fun g hg => ?_⟩
    rcases List.mem_append.1 hg with hg | hg
    · exact .inl hg
    · exact .inr (List.mem_singleton.1 hg ▸ hf)

theorem bindProperty_bindsFields {p : Node} {a : Option Node}
    (h : c.bindProperty typescript p = .ok (c', a)) : BindsFields (propDefault? p).toList c c' := by
  unfold bindProperty at h
  split at h
  · next computed shorthand sp k value =>
    split at h
    · cases h
      exact ⟨rfl, rfl, rfl, fun _ hf => .inl hf⟩
    · next key hkey =>
      have hdefault (t : Text) (ht : (splitDefault value).2 = some t) :
          ∃ e ∈ (propDefault? (.mk (.patternProperty computed shorthand) sp [k, value])).toList,
            t = e.printExpression := by
        unfold splitDefault at ht
        split at ht
        · next d =>
          cases ht
          exact ⟨d, by simp [propDefault?, hkey], rfl⟩
        · cases ht
      have hfield := addField_bindsFields c (f := ⟨key, (splitDefault value).2⟩) hdefault
      dsimp only at h
      split at h
      · cases h
        exact ⟨hfield.params, hfield.module, hfield.blocks, hfield.fields⟩
      · obtain ⟨s, -, h⟩ := of_bind_eq_ok h
        cases h
        exact ⟨hfield.params, hfield.module, hfield.blocks, hfield.fields⟩
  · split at h
    · cases h
      exact ⟨rfl, rfl, rfl, fun _ hf => .inl hf⟩
    · obtain ⟨s, -, h⟩ := of_bind_eq_ok h
      cases h
      exact ⟨rfl, rfl, rfl, fun _ hf => .inl hf⟩
  · cases h
    exact ⟨rfl, rfl, rfl, fun _ hf => .inl hf⟩

theorem bindProperties_bindsFields {ps : List Node} {as : List Node}
    (h : bindProperties typescript ps c = .ok (c', as)) :
    BindsFields (ps.filterMap propDefault?) c c' := by
  induction ps generalizing c as with
  | nil =>
    cases h
    exact .refl _ _
  | cons p ps ih =>
    obtain ⟨⟨d, a⟩, hd, h⟩ := of_bind_eq_ok h
    obtain ⟨⟨e, as'⟩, he, h⟩ := of_bind_eq_ok h
    cases h
    have hp := (bindProperty_bindsFields hd).trans (ih he)
    cases hp? : propDefault? p <;> simpa [hp?] using hp

/-- The props that are found have the defaults that the parameter gives them. -/
theorem bindProps_bindsFields (h : c.bindProps typescript = .ok c') :
    BindsFields c.propDefaults c c' := by
  have hobject (names : List Text) (c : Component) : BindsFields [] c
      (names.foldl (fun c n => c.addField ⟨n, none⟩) c) := by
    induction names generalizing c with
    | nil => exact .refl _ c
    | cons n names ih => exact (@addField_bindsFields [] c ⟨n, none⟩ fun t ht => by cases ht).trans (ih _)
  -- What makes statements reactive comes last, whatever the parameter is like.
  have hlast (d : Component) (hd : BindsFields c.propDefaults c d)
      (h : (d.propagate typescript >>= fun p => pure p.1) = .ok c') :
      BindsFields c.propDefaults c c' := by
    obtain ⟨⟨e, n⟩, he, h⟩ := of_bind_eq_ok h
    cases h
    have hframe := propagate_sameFrame he
    exact ⟨hframe.params.trans hd.params, hframe.module.trans hd.module,
      hframe.blocks.trans hd.blocks, fun f hf => hd.fields f (hframe.fields ▸ hf)⟩
  unfold bindProps at h
  dsimp only at h
  split at h
  · next sp ps hps =>
    obtain ⟨d, hd, h⟩ := of_bind_eq_ok h
    obtain ⟨⟨e, as⟩, he, hd⟩ := of_bind_eq_ok hd
    cases hd
    have he := bindProperties_bindsFields he
    refine hlast _ ?_ h
    rw [propDefaults, hps]
    exact ⟨he.params, he.module, he.blocks, he.fields⟩
  · next x sp ps hps =>
    refine hlast _ ?_ h
    have he := hobject (Node.fieldsReadList propsObject (Node.renameList x propsObject c.body))
      { c with form := formOf c.params, body := Node.renameList x propsObject c.body }
    rw [propDefaults, hps]
    exact ⟨he.params, he.module, he.blocks, he.fields⟩
  · exact hlast { c with form := formOf c.params } ⟨rfl, rfl, rfl, fun _ hf => .inl hf⟩ h

/-- The component of a module is the function that its default export stands for, which
    has a body and returns as it should. -/
theorem exists_export_of_ofModule {length : Nat} (h : ofModule length module = .ok c) :
    ∃ e, Export.resolve module (Export.fuel module) = .found e ∧
      e.function.body.isAbsent = false ∧ c = ofExport module e ∧ c.returnProblem? = none := by
  unfold ofModule at h
  split at h
  · next e he =>
    dsimp only at h
    split at h
    · cases h
    · next hbody =>
      split at h
      · cases h
      · next hproblem =>
        cases h
        exact ⟨e, he, Bool.eq_false_iff.2 hbody, rfl, hproblem⟩
  · cases h

theorem ofModule_eq_ok {length : Nat} (h : ofModule length module = .ok c) :
    c.fields = [] ∧ c.blocks = [] := by
  obtain ⟨e, -, -, rfl, -⟩ := exists_export_of_ofModule h
  exact ⟨rfl, rfl⟩

theorem checkPlacement_eq_ok (h : c.checkPlacement = .ok c') : c' = c := by
  obtain ⟨seen, _, h⟩ := of_bind_eq_ok h
  obtain ⟨seen', _, h⟩ := of_bind_eq_ok h
  cases h
  rfl

/-- Before its markup is lowered a component has no blocks, and its props have
    the defaults that its parameter gives them. -/
theorem placed_eq_ok (h : compileThrough options [.props, .state, .placement] source = .ok c) :
    c.blocks = [] ∧ ∀ f ∈ c.fields, ∀ d, f.default = some d →
      ∃ e ∈ c.propDefaults, d = e.printExpression := by
  obtain ⟨module, -, h⟩ := of_bind_eq_ok h
  obtain ⟨d, hd, h⟩ := of_bind_eq_ok h
  obtain ⟨e, he, h⟩ := of_bind_eq_ok (x := d.bindProps options.typescript) h
  obtain ⟨f, hf, h⟩ := of_bind_eq_ok (x := e.extractState options.typescript) h
  obtain ⟨g, hg, h⟩ := of_bind_eq_ok (x := f.checkPlacement) h
  cases h
  obtain rfl := checkPlacement_eq_ok hg
  obtain ⟨hfields, hblocks⟩ := ofModule_eq_ok hd
  have hprops := bindProps_bindsFields he
  have hstate := extractState_sameFrame hf
  refine ⟨by rw [hstate.blocks, hprops.blocks, hblocks], fun f hf t ht => ?_⟩
  rw [hstate.fields] at hf
  rw [propDefaults, hstate.params, hprops.params]
  rcases hprops.fields f hf with hf | hf
  · rw [hfields] at hf
    cases hf
  · exact hf t ht

/-- Compilation through some steps goes on with the component that the steps
    before have reached. -/
theorem compileThrough_append (options : Options) (passes passes' : List Pass) (source : Text) :
    compileThrough options (passes ++ passes') source =
      compileThrough options passes source >>= fun c =>
        passes'.foldlM (fun c p => p.run options.typescript c) c := by
  simp [compileThrough, List.foldlM_append]

theorem compileThrough_of_ofModule
    (hmodule : parse options source = .ok module) (hc : ofModule source.byteLength module = .ok c)
    (passes : List Pass) : compileThrough options passes source =
      passes.foldlM (fun c p => p.run options.typescript c) c := by
  rw [compileThrough, hmodule]
  show (ofModule _ module >>= _) = _
  rw [hc]
  rfl

theorem compileThrough_from {passes : List Pass}
    (h : compileThrough options passes source = .ok c) (passes' : List Pass) :
    compileThrough options (passes ++ passes') source =
      passes'.foldlM (fun c p => p.run options.typescript c) c := by
  rw [compileThrough_append, h]
  rfl

/-- Hooks are taken apart in the component that is lowered, which leaves its props
    and blocks as they are. -/
theorem hooked_eq_ok {c₀ c₂ : Component}
    (h₀ : compileThrough options [.props, .state, .placement] source = .ok c₀)
    (h₂ : compileThrough options [.props, .state, .placement, .lowering, .hooks] source = .ok c₂) :
    (∃ d, c₀.lowerMarkup.lowerEffects = .ok d ∧ d.unmemo = .ok c₂) ∧
      c₂.fields = c₀.fields ∧ c₂.blocks = c₀.shapes.map Shape.block := by
  obtain ⟨d, hd, hc₂⟩ : ∃ d, c₀.lowerMarkup.lowerEffects = .ok d ∧ d.unmemo = .ok c₂ := by
    have h := (compileThrough_from h₀ [.lowering, .hooks]).symm.trans h₂
    obtain ⟨c, hc, h⟩ := of_bind_eq_ok (x := do (← c₀.lowerMarkup.lowerEffects).unmemo) h
    cases h
    exact of_bind_eq_ok hc
  refine ⟨⟨d, hd, hc₂⟩, ?_⟩
  obtain ⟨body, ms, lifecycle, -, -, rfl⟩ := lowerEffects_eq_ok hd
  obtain ⟨module', body', -, -, rfl⟩ := unmemo_eq_ok hc₂
  exact ⟨rfl, lowerMarkup_blocks c₀⟩

theorem blocks_inlineMarkup {c₀ c₂ : Component}
    (h₀ : compileThrough options [.props, .state, .placement] source = .ok c₀)
    (h₂ : compileThrough options [.props, .state, .placement, .lowering, .hooks] source = .ok c₂) :
    c₂.inlineMarkup.blocks = c₀.shapes.map (fun y => c₂.markupTable.fillBlock y.block) := by
  show c₂.blocks.map _ = _
  rw [(hooked_eq_ok h₀ h₂).2.2, List.map_map]
  rfl

/-- Compilation ends with showing markup variables, which cannot fail. -/
theorem compileThrough_all
    (h : compileThrough options [.props, .state, .placement, .lowering, .hooks] source = .ok c) :
    compileThrough options Pass.all source = .ok c.inlineMarkup := compileThrough_from h [.inlining]

/-- The components that a source passes through until its markup variables are shown. -/
theorem compileThrough_hooks_eq_ok {f : Component}
    (h : compileThrough options [.props, .state, .placement, .lowering, .hooks] source = .ok f) :
    ∃ module c₀ b d e, parse options source = .ok module ∧
      ofModule source.byteLength module = .ok c₀ ∧ c₀.bindProps options.typescript = .ok b ∧
      b.extractState options.typescript = .ok d ∧ d.lowerMarkup.lowerEffects = .ok e ∧
      e.unmemo = .ok f := by
  obtain ⟨module, hmodule, h⟩ := of_bind_eq_ok h
  obtain ⟨c₀, hc₀, h⟩ := of_bind_eq_ok h
  obtain ⟨b, hb, h⟩ := of_bind_eq_ok (x := c₀.bindProps options.typescript) h
  obtain ⟨d, hd, h⟩ := of_bind_eq_ok (x := b.extractState options.typescript) h
  obtain ⟨d', hd', h⟩ := of_bind_eq_ok (x := d.checkPlacement) h
  obtain ⟨f, hf, h⟩ := of_bind_eq_ok (x := do (← d'.lowerMarkup.lowerEffects).unmemo) h
  obtain ⟨e, he, hf⟩ := of_bind_eq_ok hf
  cases h
  rw [checkPlacement_eq_ok hd'] at he
  exact ⟨module, c₀, b, d, e, hmodule, hc₀, hb, hd, he, hf⟩

/-- What passes through all steps has its markup variables shown in the last one. -/
theorem exists_hooks_of_compileThrough_all (h : compileThrough options Pass.all source = .ok c) :
    ∃ f, compileThrough options [.props, .state, .placement, .lowering, .hooks] source = .ok f ∧
      c = f.inlineMarkup := by
  obtain ⟨f, hf, h⟩ := of_bind_eq_ok ((compileThrough_append options
    [.props, .state, .placement, .lowering, .hooks] [.inlining] source).symm.trans h)
  cases h
  exact ⟨f, hf, rfl⟩

/-- The components that a source passes through when it is compiled. -/
theorem compileThrough_all_eq_ok (h : compileThrough options Pass.all source = .ok c) :
    ∃ module c₀ b d e f, parse options source = .ok module ∧
      ofModule source.byteLength module = .ok c₀ ∧ c₀.bindProps options.typescript = .ok b ∧
      b.extractState options.typescript = .ok d ∧ d.lowerMarkup.lowerEffects = .ok e ∧
      e.unmemo = .ok f ∧ c = f.inlineMarkup := by
  obtain ⟨f, hf, rfl⟩ := exists_hooks_of_compileThrough_all h
  obtain ⟨module, c₀, b, d, e, hmodule, hc₀, hb, hd, he, hf⟩ := compileThrough_hooks_eq_ok hf
  exact ⟨module, c₀, b, d, e, f, hmodule, hc₀, hb, hd, he, hf, rfl⟩

/-- A document is made of the script and the markup. -/
theorem document_eq_ok {doc : Document} (h : c.document options = .ok doc) :
    ∃ script markup, c.script options = .ok script ∧ c.markup = .ok markup ∧
      doc = ⟨script, markup, Document.layout options.indent script markup,
        (c.fields.map Field.name).filter (!Document.isInternal ·), c.cells.map Cell.value,
        c.lifecycle, c.synthesized⟩ := by
  obtain ⟨script, hscript, h⟩ := of_bind_eq_ok h
  obtain ⟨markup, hmarkup, h⟩ := of_bind_eq_ok h
  cases h
  exact ⟨script, markup, hscript, hmarkup, rfl⟩

/-- The markup of a component is what it returns, in which blocks are put. -/
theorem markup_eq_ok {m : Text} (h : c.markup = .ok m) : ∃ e, c.returned? = some e ∧
    m = Document.stripFragments (Block.expand c.blocks e.printExpression) := by
  unfold markup at h
  split at h
  · cases h
  · next e he =>
    split at h
    · cases h
      exact ⟨e, he, rfl⟩
    · cases h

end Component

end Unhook
