import Mathlib.Data.List.Induction
import Unhook.Proofs.Closure
import Unhook.Proofs.Opening
import Unhook.Proofs.Untouched

/-!
# The props of a component and their items

The props of a component that takes them apart are the keys of its pattern; those
of a component that takes them as one object are the properties that are read from
that object, wherever this is. Each of them has one item in the script, which
begins with `export let`. So has a variable that is exported within the component,
which nothing keeps from being there, but no other item.

* `Node.mem_fieldsRead`: which properties are read from an object;
* `Component.bindProps_names`: the names of the props;
* `Component.props_exported`: the items that begin with `export let`.
-/

namespace Unhook

namespace Text

theorem eraseDups_concat (xs : List Text) (x : Text) :
    (xs ++ [x]).eraseDups = if x ∈ xs then xs.eraseDups else xs.eraseDups ++ [x] := by
  rw [List.eraseDups_append]
  split
  · next hx => simp [List.removeAll, hx]
  · next hx =>
    have hnew : [x].removeAll xs = [x] := by simp [List.removeAll, hx]
    rw [hnew]
    rfl

theorem nodup_eraseDups (xs : List Text) : xs.eraseDups.Nodup := by
  induction xs using List.reverseRecOn with
  | nil => exact .nil
  | append_singleton xs x ih =>
    rw [eraseDups_concat]
    split
    · exact ih
    · next hx =>
      refine List.nodup_append.2 ⟨ih, List.pairwise_singleton _ _, fun a ha b hb => ?_⟩
      rw [List.mem_eraseDups] at ha
      rintro rfl
      exact hx (List.mem_singleton.1 hb ▸ ha)

end Text

namespace Node

variable {n : Node}

/-- A node takes the property `f` of `object`: as a member of it, or as a variable that a
    pattern is made of it by. -/
def Takes (object f : Text) (n : Node) : Prop :=
  (∃ link o, n.kind = .member link f ∧ n.parts = [o] ∧ o.kind = .identifier object) ∨
    ∃ definite p t init, n.kind = .declarator definite ∧ n.parts = [p, t, init] ∧
      init.kind = .identifier object ∧ f ∈ p.keyNames

theorem mem_ownFields {object f : Text} : f ∈ n.ownFields object ↔ n.Takes object f := by
  fun_cases ownFields object n with
  | case1 definite s p t init h =>
    have hinit := identifier?_eq_some.1 h
    exact ⟨fun hf => .inr ⟨definite, p, t, init, rfl, rfl, hinit, hf⟩, by
      rintro (⟨link, o, hkind, -⟩ | ⟨_, p', t', init', -, hparts, -, hf⟩)
      · cases hkind
      · cases hparts
        exact hf⟩
  | case2 definite s p t init h =>
    refine ⟨fun hf => absurd hf List.not_mem_nil, ?_⟩
    rintro (⟨link, o, hkind, -⟩ | ⟨_, p', t', init', -, hparts, hinit, -⟩)
    · cases hkind
    · cases hparts
      exact absurd (identifier?_eq_some.2 hinit) h
  | case3 link x s o h =>
    have ho := identifier?_eq_some.1 h
    rw [List.mem_singleton]
    refine ⟨fun hf => .inl ⟨link, o, by rw [hf]; rfl, rfl, ho⟩, ?_⟩
    rintro (⟨link', o', hkind, -⟩ | ⟨_, p', t', init', hkind, -⟩)
    · cases hkind
      rfl
    · cases hkind
  | case4 link x s o h =>
    refine ⟨fun hf => absurd hf List.not_mem_nil, ?_⟩
    rintro (⟨link', o', -, hparts, ho⟩ | ⟨_, p', t', init', hkind, -⟩)
    · cases hparts
      exact absurd (identifier?_eq_some.2 ho) h
    · cases hkind
  | case5 n hdeclarator hmember =>
    refine ⟨fun hf => absurd hf List.not_mem_nil, ?_⟩
    obtain ⟨k, s, ps⟩ := n
    rintro (⟨link, o, rfl, rfl, -⟩ | ⟨definite, p, t, init, rfl, rfl, -⟩)
    · exact (hmember _ _ _ _ rfl).elim
    · exact (hdeclarator _ _ _ _ _ rfl).elim

theorem fieldsReadList_eq (object : Text) (ns : List Node) :
    fieldsReadList object ns = ns.flatMap (fieldsRead object) := by
  induction ns with
  | nil => rfl
  | cons n ns ih => rw [fieldsReadList, ih, List.flatMap_cons]

/-- The properties that are read from an object are those that some node takes, at any
    depth. -/
theorem mem_fieldsRead {object f : Text} :
    f ∈ n.fieldsRead object ↔ ∃ path m, n.at? path = some m ∧ m.Takes object f := by
  induction n with
  | mk k s ps ih =>
    rw [fieldsRead, List.mem_append, mem_ownFields, fieldsReadList_eq, List.mem_flatMap]
    constructor
    · rintro (hown | ⟨p, hp, hf⟩)
      · exact ⟨[], _, rfl, hown⟩
      · obtain ⟨i, hi⟩ := List.mem_iff_getElem?.1 hp
        obtain ⟨path, m, hm, htakes⟩ := (ih p hp).1 hf
        exact ⟨i :: path, m, by rw [at?_cons, parts_mk, hi]; exact hm, htakes⟩
    · rintro ⟨path, m, hm, htakes⟩
      cases path with
      | nil =>
        cases hm
        exact .inl htakes
      | cons i path =>
        obtain ⟨p, hp, hm⟩ := Option.bind_eq_some_iff.1 hm
        have hp := List.mem_of_getElem? hp
        exact .inr ⟨p, hp, (ih p hp).2 ⟨path, m, hm, htakes⟩⟩

/-! ### Renaming -/

variable {old new : Text}

theorem keyName?_rename (n : Node) : (n.rename old new).keyName? = n.keyName? := by
  obtain ⟨k, s, ps⟩ := n
  cases k <;> rfl

theorem keyNames_rename (p : Node) : (p.rename old new).keyNames = p.keyNames := by
  obtain ⟨k, s, ps⟩ := p
  cases k
  case objectPattern =>
    show List.filterMap _ (renameList old new ps) = List.filterMap _ ps
    rw [renameList_eq, List.filterMap_map]
    refine List.filterMap_congr fun q _ => ?_
    obtain ⟨k, s, qs⟩ := q
    cases k
    case patternProperty computed shorthand =>
      cases qs with
      | nil => rfl
      | cons key qs => exact keyName?_rename key
    all_goals rfl
  all_goals rfl

/-- A name that was not there before is where the old one was. -/
theorem identifier?_rename (h : n.mentions new = false) :
    (n.rename old new).identifier? = some new ↔ n.identifier? = some old := by
  obtain ⟨k, s, ps⟩ := n
  have hnew := (mentions_eq_false.1 h).1
  cases k
  case identifier x =>
    have hx : x ≠ new := fun hx => hnew (by rw [hx]; rfl)
    show some (if x = old then new else x) = some new ↔ some x = some old
    by_cases hold : x = old
    · rw [if_pos hold, hold]
      exact ⟨fun _ => rfl, fun _ => rfl⟩
    · rw [if_neg hold, Option.some.injEq, Option.some.injEq]
      exact ⟨fun h => absurd h hx, fun h => absurd h hold⟩
  all_goals exact iff_of_false (fun h => by cases h) (fun h => by cases h)

theorem ownFields_rename (h : n.mentions new = false) :
    (n.rename old new).ownFields new = n.ownFields old := by
  obtain ⟨k, s, ps⟩ := n
  have hparts := (mentions_eq_false.1 h).2
  cases k
  case declarator definite =>
    rcases ps with _ | ⟨p, _ | ⟨t, _ | ⟨init, _ | ⟨q, ps⟩⟩⟩⟩
    case cons.cons.cons.nil =>
      have hinit := @identifier?_rename init old new (hparts init (by simp))
      show (if (init.rename old new).identifier? = some new then (p.rename old new).keyNames else []) =
        if init.identifier? = some old then p.keyNames else []
      rw [keyNames_rename, if_congr hinit rfl rfl]
    all_goals rfl
  case member link x =>
    rcases ps with _ | ⟨o, _ | ⟨q, ps⟩⟩
    case cons.nil =>
      have ho := @identifier?_rename o old new (hparts o List.mem_cons_self)
      show (if (o.rename old new).identifier? = some new then [x] else []) =
        if o.identifier? = some old then [x] else []
      rw [if_congr ho rfl rfl]
    all_goals rfl
  all_goals rfl

/-- The properties that are read from the object of all props are those that were read
    from the parameter, if that object was not mentioned before. -/
theorem fieldsRead_rename (h : n.mentions new = false) :
    (n.rename old new).fieldsRead new = n.fieldsRead old := by
  induction n with
  | mk k s ps ih =>
    have hparts := (mentions_eq_false.1 h).2
    have hown := @ownFields_rename _ old new h
    rw [rename] at hown ⊢
    rw [fieldsRead, fieldsRead, hown, fieldsReadList_eq, fieldsReadList_eq, renameList_eq,
      List.flatMap_map]
    exact congrArg _ (List.flatMap_congr fun p hp => ih p hp (hparts p hp))

end Node

namespace Component

variable {typescript : Bool} {c c' : Component} {xs : List Text}

/-- The prop that a part of the parameter's pattern takes. -/
def takenKey? : Node → Option Text
  | .mk (.patternProperty _ _) _ [k, _] => k.keyName?
  | _ => none

/-- The props that a component takes, as often as it takes them, in reading order. -/
def takenProps (c : Component) : List Text :=
  match c.params.head?.map Node.pattern with
  | some (.mk .objectPattern _ ps) => ps.filterMap takenKey?
  | some (.mk (.binding p) _ _) => c.body.flatMap (Node.fieldsRead p)
  | _ => []

theorem addField_names {f : Field} (h : c.fields.map Field.name = xs.eraseDups) :
    (c.addField f).fields.map Field.name = (xs ++ [f.name]).eraseDups := by
  have hany : (c.fields.any fun g => g.name = f.name) = true ↔ f.name ∈ xs := by
    rw [← List.mem_eraseDups, ← h, List.mem_map, List.any_eq_true]
    simp only [decide_eq_true_eq]
  rw [Text.eraseDups_concat, addField]
  by_cases hmem : f.name ∈ xs
  · rw [if_pos (hany.2 hmem), if_pos hmem, h]
  · rw [if_neg (mt hany.1 hmem), if_neg hmem, List.map_append, h]
    rfl

/-- A part of the parameter's pattern adds the prop that it takes, unless it is there. -/
theorem bindProperty_names {p : Node} {a : Option Node}
    (h : c.bindProperty typescript p = .ok (c', a)) (hc : c.fields.map Field.name = xs.eraseDups) :
    c'.fields.map Field.name = (xs ++ (takenKey? p).toList).eraseDups := by
  have hnone (hp : takenKey? p = none) : c.fields.map Field.name =
      (xs ++ (takenKey? p).toList).eraseDups := by
    rw [hp, Option.toList_none, List.append_nil, hc]
  unfold bindProperty at h
  split at h
  · next k value =>
    split at h
    · next hkey =>
      cases h
      exact hnone hkey
    · next key hkey =>
      rw [takenKey?, hkey]
      dsimp only at h
      -- Following names leaves the props alone, with an alias and without.
      split at h
      · cases h
        exact addField_names (f := ⟨key, (splitDefault value).2⟩) hc
      · obtain ⟨a, -, h⟩ := of_bind_eq_ok h
        cases h
        exact addField_names (f := ⟨key, (splitDefault value).2⟩) hc
  · split at h
    · cases h
      exact hnone rfl
    · obtain ⟨a, -, h⟩ := of_bind_eq_ok h
      cases h
      exact hnone rfl
  · next hproperty _ =>
    cases h
    refine hnone ?_
    unfold takenKey?
    split
    · exact (hproperty _ _ _ _ _ rfl).elim
    · rfl

theorem bindProperties_names {ps as : List Node} (h : bindProperties typescript ps c = .ok (c', as))
    (hc : c.fields.map Field.name = xs.eraseDups) :
    c'.fields.map Field.name = (xs ++ ps.filterMap takenKey?).eraseDups := by
  induction ps generalizing c as xs with
  | nil =>
    cases h
    rw [List.filterMap_nil, List.append_nil]
    exact hc
  | cons p ps ih =>
    obtain ⟨⟨d, a⟩, hd, h⟩ := of_bind_eq_ok h
    obtain ⟨⟨e, as'⟩, he, h⟩ := of_bind_eq_ok h
    cases h
    rw [ih he (bindProperty_names hd hc), List.append_assoc]
    cases hp : takenKey? p <;> simp [hp]

theorem addFields_names {names xs : List Text} (hc : c.fields.map Field.name = xs.eraseDups) :
    ((names.foldl (fun c n => c.addField ⟨n, none⟩) c).fields.map Field.name) =
      (xs ++ names).eraseDups := by
  induction names generalizing c xs with
  | nil => rw [List.append_nil]; exact hc
  | cons x names ih =>
    rw [List.foldl_cons, ih (addField_names hc), List.append_assoc]
    rfl

/-- The props that are found in a component, as often as they are, in reading order: those
    of one object once its name is that of all props. -/
def foundProps (c : Component) : List Text :=
  match c.params.head?.map Node.pattern with
  | some (.mk .objectPattern _ ps) => ps.filterMap takenKey?
  | some (.mk (.binding p) _ _) =>
    c.body.flatMap fun s => (s.rename p propsObject).fieldsRead propsObject
  | _ => []

theorem foundProps_eq (hobject : ∀ s ∈ c.body, s.mentions propsObject = false) :
    c.foundProps = c.takenProps := by
  unfold foundProps takenProps
  split
  · rfl
  · exact List.flatMap_congr fun s hs => Node.fieldsRead_rename (hobject s hs)
  · rfl

/-- Props are found one after the other, each once. -/
theorem bindProps_fields (h : c.bindProps typescript = .ok c') (hc : c.fields = []) :
    c'.fields.map Field.name = c.foundProps.eraseDups := by
  have hempty : c.fields.map Field.name = ([] : List Text).eraseDups := by
    rw [hc]
    rfl
  have hlast (d : Component) (h : (d.propagate typescript >>= fun p => pure p.1) = .ok c') :
      c'.fields = d.fields := by
    obtain ⟨⟨e, n⟩, he, h⟩ := of_bind_eq_ok h
    cases h
    exact (propagate_sameFrame he).fields
  unfold bindProps at h
  dsimp only at h
  split at h
  · next sp ps hps =>
    obtain ⟨d, hd, h⟩ := of_bind_eq_ok h
    obtain ⟨⟨e, as⟩, he, hd⟩ := of_bind_eq_ok hd
    cases hd
    rw [hlast _ h, foundProps, hps]
    exact bindProperties_names he hempty
  · next x sp ps hps =>
    have hnames := @addFields_names
      { c with
        form := formOf c.params
        body := Node.renameList x propsObject c.body }
    rw [hlast _ h, foundProps, hps]
    refine (hnames hempty).trans ?_
    rw [Node.fieldsReadList_eq, Node.renameList_eq, List.flatMap_map]
    rfl
  · next hpattern hname =>
    rw [hlast _ h, foundProps]
    split
    · next hps => exact (hpattern _ _ hps).elim
    · next hps => exact (hname _ _ _ hps).elim
    · exact hempty

/-- The names of the props are those that the component takes, each once, in the order in
    which they come up first. -/
theorem bindProps_names (h : c.bindProps typescript = .ok c') (hc : c.fields = [])
    (hobject : ∀ s ∈ c.body, s.mentions propsObject = false) :
    c'.fields.map Field.name = c.takenProps.eraseDups := by
  rw [bindProps_fields h hc, foundProps_eq hobject]

/-- The props of a compiled component. -/
theorem compiled_names {options : Options} {source : Text} {c₀ : Component}
    (h₀ : compileThrough options [] source = .ok c₀)
    (h : compileThrough options Pass.all source = .ok c)
    (hobject : ∀ s ∈ c₀.body, s.mentions propsObject = false) :
    c.fields.map Field.name = c₀.takenProps.eraseDups := by
  obtain ⟨module, c₁, b, d, e, f, hmodule, hc₁, hb, hd, he, hf, rfl⟩ := compileThrough_all_eq_ok h
  cases (compileThrough_of_ofModule hmodule hc₁ []).symm.trans h₀
  obtain ⟨body, ms, lifecycle, -, -, rfl⟩ := lowerEffects_eq_ok he
  obtain ⟨module', body', -, -, rfl⟩ := unmemo_eq_ok hf
  show d.fields.map Field.name = _
  rw [(extractState_sameFrame hd).fields]
  exact bindProps_names hb (ofModule_eq_ok hc₁).1 hobject

end Component

/-! ### Items -/

open Text

/-- The item of a prop, with a default or without. -/
def IsPropItem (x t : Text) : Prop :=
  ∃ given : Text, (given = [] ∨ ∃ d, given = " = ".toList ++ d) ∧
    t = exportLet ++ x ++ given ++ ";".toList

theorem IsPropItem.startsWith {x t : Text} (h : IsPropItem x t) : t.startsWith exportLet = true := by
  obtain ⟨given, -, rfl⟩ := h
  rw [List.append_assoc, List.append_assoc]
  exact List.isPrefixOf_iff_prefix.2 (List.prefix_append _ _)

namespace Document

variable {t : Text}

theorem isPropItem_propItem (f : Field) : IsPropItem f.name (propItem f) := by
  obtain ⟨x, default⟩ := f
  cases default with
  | none => exact ⟨[], .inl rfl, rfl⟩
  | some d => exact ⟨" = ".toList ++ d, .inr ⟨d, rfl⟩, rfl⟩

theorem startsWith_eq_false (h : ¬ exportLet <+: t) : t.startsWith exportLet = false :=
  Bool.eq_false_iff.2 (mt List.isPrefixOf_iff_prefix.1 h)

/-- An item of the module does not begin with `export let`, if its statement begins as it
    should. -/
theorem not_exportLet_moduleItem? {s : Node} (hs : s.unexported.opensWell = true)
    (h : moduleItem? s = some t) : ¬ exportLet <+: t := by
  obtain ⟨-, ⟨hkind, ht⟩ | ⟨rfl, hkept⟩⟩ := moduleItem?_eq_some_iff.1 h
  · obtain ⟨k, sp, ps⟩ := s
    obtain rfl : k = .exportDeclaration := hkind
    exact Node.not_exportLet_of_export hs ht
  · intro hlet
    have hkind : s.kind ≠ .exportDeclaration := fun hkind => by
      obtain ⟨u, hu⟩ := hlet
      have hafter : after? "export ".toList s.printStatement = some ("let ".toList ++ u) :=
        Block.after?_eq_some_iff.2 (hu ▸ rfl)
      cases (hkept hkind).symm.trans hafter
    have hsame : s.unexported = s := by
      unfold Node.unexported
      split
      · exact absurd rfl hkind
      · rfl
    exact Node.not_exportLet_printStatement (hsame ▸ hs) hlet

/-- The function of a setter does not begin with `export let`. -/
theorem not_exportLet_setterItems {typescript : Bool} {c : Component} {names items : List Text}
    (h : setterItems typescript c names = .ok items)
    (hsetters : ∀ p ∈ c.setters, readsSetter typescript p.1 p.2 = true) (ht : t ∈ items) :
    ¬ exportLet <+: t := by
  obtain ⟨fs, rfl, hfs⟩ := setterItems_eq_ok h
  obtain ⟨f, hf, rfl⟩ := List.mem_map.1 ht
  obtain ⟨p, hp, hread⟩ := Node.exists_of_forall₂ hfs hf
  have hf := setterFunction?_of_read (hsetters p (Component.mem_setters_of_mem_settersOf hp)) hread
  refine Node.not_exportLet_printStatement ?_
  unfold Node.setterFunction? at hf
  split at hf
  · rfl
  · cases hf

theorem filter_exportLet_statements {ss : List Node}
    (hss : ∀ s ∈ ss, s.kind = .exportDeclaration ∨ s.opensWell = true) :
    (ss.map Node.printStatement).filter (·.startsWith exportLet) =
      ((ss.filter (·.kind = .exportDeclaration)).map Node.printStatement).filter
        (·.startsWith exportLet) := by
  induction ss with
  | nil => rfl
  | cons s ss ih =>
    obtain ⟨hs, hss⟩ := List.forall_mem_cons.1 hss
    by_cases hkind : s.kind = .exportDeclaration
    · rw [List.filter_cons_of_pos (by simpa using hkind), List.map_cons, List.map_cons,
        List.filter_cons, List.filter_cons, ih hss]
    · have hlet := Node.not_exportLet_printStatement (hs.resolve_left hkind)
      rw [List.filter_cons_of_neg (by simpa using hkind), List.map_cons,
        List.filter_cons_of_neg (by simp [startsWith_eq_false hlet]), ih hss]

end Document

namespace Component

open Document

variable {c : Component}

/-- The items that begin with `export let`: those of props, and those of what is exported
    within the component. -/
theorem filter_exportLet_script {options : Options} {items : List Text}
    (h : c.script options = .ok items)
    (hmodule : ∀ s ∈ c.module, s.unexported.opensWell = true)
    (hbody : ∀ s ∈ c.body.dropLast, s.kind = .exportDeclaration ∨ s.opensWell = true)
    (hsetters : ∀ p ∈ c.setters, readsSetter options.typescript p.1 p.2 = true) :
    items.filter (·.startsWith exportLet) =
      (c.fields.filter fun f => !isInternal f.name).map propItem ++
        ((c.body.dropLast.filter (·.kind = .exportDeclaration)).map Node.printStatement).filter
          (·.startsWith exportLet) := by
  obtain ⟨setters, hitems, h⟩ := of_bind_eq_ok h
  cases h
  have himport : (lifecycleImport? options.runtimeModule c.lifecycle).toList.filter
      (·.startsWith exportLet) = [] := by
    unfold lifecycleImport?
    split <;> rfl
  have hmodule : (c.module.filterMap moduleItem?).filter (·.startsWith exportLet) = [] := by
    refine List.filter_eq_nil_iff.2 fun t ht => ?_
    obtain ⟨s, hs, ht⟩ := List.mem_filterMap.1 ht
    rw [startsWith_eq_false (not_exportLet_moduleItem? (hmodule s hs) ht)]
    exact Bool.false_ne_true
  have hprops (fs : List Field) : (fs.map propItem).filter (·.startsWith exportLet) =
      fs.map propItem := by
    refine List.filter_eq_self.2 (List.forall_mem_map.2 fun f _ => ?_)
    exact (isPropItem_propItem f).startsWith
  have hsetters : setters.filter (·.startsWith exportLet) = [] := by
    refine List.filter_eq_nil_iff.2 fun t ht => ?_
    rw [startsWith_eq_false (not_exportLet_setterItems hitems hsetters ht)]
    exact Bool.false_ne_true
  simp only [List.filter_append, himport, hmodule, hprops, hsetters, List.nil_append, List.append_nil]
  rw [filter_exportLet_statements hbody]

/-- A component that takes its props as one object takes what is read from its parameter,
    at any depth of its body. -/
theorem mem_takenProps {p f : Text} {s : Span} {ps : List Node}
    (h : c.params.head?.map Node.pattern = some (.mk (.binding p) s ps)) :
    f ∈ c.takenProps ↔ ∃ b ∈ c.body, ∃ path m, b.at? path = some m ∧ m.Takes p f := by
  rw [takenProps, h]
  show f ∈ c.body.flatMap (Node.fieldsRead p) ↔ _
  simp only [List.mem_flatMap, Node.mem_fieldsRead]

/-- Props and their items. Hypotheses: the body does not mention the object of all props;
    the statements of the compiled component begin as they should, but for those that
    export something in its body; and setters are read as they are meant. Then

    * the props are those that the component takes (`takenProps`), each once and in the
      order in which they come up first, without internal ones;
    * if it takes them as one object, these are the properties that are read from its
      parameter at any depth;
    * the items that begin with `export let` are one for each prop, in order, and then
      those of variables that the body itself exports. -/
theorem props_exported {options : Options} {source : Text} {c₀ c : Component} {doc : Document}
    (h₀ : compileThrough options [] source = .ok c₀)
    (h : compileThrough options Pass.all source = .ok c) (hdoc : c.document options = .ok doc)
    (hobject : ∀ s ∈ c₀.body, s.mentions propsObject = false)
    (hmodule : ∀ s ∈ c.module, s.unexported.opensWell = true)
    (hbody : ∀ s ∈ c.body.dropLast, s.kind = .exportDeclaration ∨ s.opensWell = true)
    (hsetters : ∀ p ∈ c.setters, readsSetter options.typescript p.1 p.2 = true) :
    doc.props = c₀.takenProps.eraseDups.filter (!isInternal ·) ∧ doc.props.Nodup ∧
      (∀ p s ps, c₀.params.head?.map Node.pattern = some (.mk (.binding p) s ps) → ∀ f,
        f ∈ c₀.takenProps ↔ ∃ b ∈ c₀.body, ∃ path m, b.at? path = some m ∧ m.Takes p f) ∧
      ∃ items, List.Forall₂ IsPropItem doc.props items ∧
        doc.script.filter (·.startsWith exportLet) = items ++
          ((c.body.dropLast.filter (·.kind = .exportDeclaration)).map Node.printStatement).filter
            (·.startsWith exportLet) := by
  have hnames := compiled_names h₀ h hobject
  obtain ⟨script, markup, hscript, -, rfl⟩ := document_eq_ok hdoc
  have hprops : (c.fields.map Field.name).filter (!isInternal ·) =
      c₀.takenProps.eraseDups.filter (!isInternal ·) := by rw [hnames]
  refine ⟨hprops, ?_, fun p s ps hp f => mem_takenProps hp, _, ?_,
    filter_exportLet_script hscript hmodule hbody hsetters⟩
  · show ((c.fields.map Field.name).filter (!isInternal ·)).Nodup
    rw [hprops]
    exact (Text.nodup_eraseDups _).filter _
  · show List.Forall₂ IsPropItem ((c.fields.map Field.name).filter (!isInternal ·)) _
    rw [List.filter_map]
    refine List.forall₂_map_left_iff.2 (List.forall₂_map_right_iff.2 (List.forall₂_same.2 ?_))
    exact fun f _ => isPropItem_propItem f

/-- A component that reads its props from one object: in a pattern, in a hook and in
    markup. -/
def readingSource : Text :=
  "export default (p) => \x7b
    const \x7b b \x7d = p;
    const [n, f] = useState(p.a);
    return <i id=\x7bp.b\x7d>\x7bn\x7d</i>;
  \x7d;"

theorem reading_props_exported : ∃ doc items, compile? {} readingSource = .ok doc ∧
    doc.props = [("b" : Text), ("a" : Text)] ∧
    List.Forall₂ IsPropItem doc.props items ∧
    doc.script.filter (·.startsWith exportLet) = items := by
  have hsource : ((compileThrough {} [] readingSource).toOption.bind fun c₀ =>
      (compileThrough {} Pass.all readingSource).toOption.bind fun c =>
      (c.document {}).toOption.map fun _ =>
        (c₀.takenProps.eraseDups.filter (!isInternal ·),
          c.body.dropLast.any (·.kind = .exportDeclaration),
          (c₀.body.all fun s => !s.mentions propsObject) &&
          (c.module.all fun s => s.unexported.opensWell) &&
          (c.body.dropLast.all fun s => s.opensWell) &&
          c.setters.all fun p => readsSetter false p.1 p.2)) =
      some ([("b" : Text), ("a" : Text)], false, true) := by
    rw [(by apply String.toList_ofList : readingSource = _)]
    decide +kernel
  obtain ⟨c₀, h₀, hsource⟩ := of_toOption_bind hsource
  obtain ⟨c, hc, hsource⟩ := of_toOption_bind hsource
  obtain ⟨doc, hdoc, hsource⟩ := of_toOption_map hsource
  simp only [Prod.mk.injEq, Bool.and_eq_true, List.all_eq_true, Bool.not_eq_true'] at hsource
  obtain ⟨hprops, hexports, ⟨⟨hobject, hmodule⟩, hbody⟩, hsetters⟩ := hsource
  obtain ⟨hnames, -, -, items, hitems, hscript⟩ := props_exported h₀ hc hdoc
    hobject hmodule (fun s hs => .inr (hbody s hs)) hsetters
  have hnone : c.body.dropLast.filter (·.kind = .exportDeclaration) = [] :=
    List.filter_eq_nil_iff.2 (List.any_eq_false.1 hexports)
  refine ⟨doc, items, ?_, hnames.trans hprops, hitems, ?_⟩
  · rw [compile?, hc]
    exact hdoc
  · rw [hscript, hnone]
    exact List.append_nil items

/-- Nothing keeps a variable from being exported within a component. -/
theorem exported_variable_in_body :
    (compile? {} "export default (\x7ba\x7d) => \x7b export let y = 1; return <p>\x7ba\x7d</p>; \x7d;").toOption.map
        (fun doc => (doc.props, doc.script)) =
      some ([("a" : Text)], [("export let a;" : Text), ("export let y = 1;" : Text)]) := by
  conv in compile? _ _ =>
    arg 2
    apply String.toList_ofList
  decide +kernel

end Component

end Unhook
