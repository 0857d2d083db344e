import Unhook.Proofs.Reported

/-!
# Where problems show

A problem is reported with the stretch of a node. The node comes from the source, or from
a text that was written and read again, or it is an assignment in the place of a call of a
setter, or it stands for a list: in the last three cases its stretch is none of the source.

* `Written`: the texts that are written and read again before problems are looked for;
* `Problem.Located`: where a problem can show;
* `failure_located`: every failure is so located, but for one of a source or a text that
  cannot be read.
-/

namespace Unhook

variable {P : Node → Prop}

/-! ### Texts that are read again -/

/-- The text of the variable that a piece of state becomes. -/
def StateDeclaration.template (d : StateDeclaration) : Text :=
  match d.initializer with
  | some _ => "let " ++ d.value ++ " = " ++ Template.hole ++ ";"
  | none => "let " ++ d.value ++ ";"

theorem StateDeclaration.declaration_eq_ok {typescript : Bool} {d : StateDeclaration} {t : Node}
    (h : d.declaration typescript = .ok t) : ∃ a, Template.read typescript d.template = .ok a ∧
      (t = a ∨ ∃ init, d.initializer = some init ∧ t = (Template.fill init a).1) := by
  rw [declaration] at h
  rw [template]
  cases hinit : d.initializer with
  | some init =>
    rw [hinit] at h
    obtain ⟨a, ha, rfl⟩ := Template.readWith_eq_ok h
    exact ⟨a, ha, .inr ⟨init, rfl, rfl⟩⟩
  | none =>
    rw [hinit] at h
    exact ⟨t, h, .inl rfl⟩

/-- The initial value of a piece of state is part of its declaration. -/
theorem StateDeclaration.all_initializer {s init : Node} {d : StateDeclaration} (hs : s.All P)
    (h : ofStatement? s = .ok (some d)) (hinit : d.initializer = some init) : init.All P := by
  unfold ofStatement? at h
  split at h
  · split at h
    · cases h
    · next hfind =>
      split at h
      · cases h
      · split at h
        · cases h
          refine Node.All.of_mem ?_ (Node.mem_of_firstArgument? hinit)
          exact (hs.of_mem (List.mem_of_find?_eq_some hfind)).of_mem (by simp)
        · cases h
  · cases h

/-- The texts that are written and read again while the component `c` gets its props and its
    state. -/
inductive Written (typescript : Bool) (c : Component) : Text → Prop
  /-- The alias of a prop. -/
  | prop {t : Text} (h : t ∈ c.aliasTexts) : Written typescript c t
  /-- The assignment that a declaration becomes, since it reads props. -/
  | follows {s pattern init : Node} (hs : s ∈ c.body)
      (h : (c.renamed s).declared? = some (pattern, init)) :
      Written typescript c (assignmentTemplate pattern)
  /-- The variable that a piece of state becomes. -/
  | variable {b : Component} {s : Node} {d : StateDeclaration}
      (hb : c.bindProps typescript = .ok b) (hs : s ∈ b.body)
      (h : StateDeclaration.ofStatement? s = .ok (some d)) : Written typescript c d.template
  /-- The assignment that a declaration becomes, since it reads state. -/
  | reacts {b d : Component} {s pattern init : Node} (hb : c.bindProps typescript = .ok b)
      (hd : b.extractState typescript = .ok d) (hs : s ∈ b.body)
      (h : (s.assigned d.setters).declared? = some (pattern, init)) :
      Written typescript c (assignmentTemplate pattern)

/-- A node of one of some trees. -/
def Node.IsIn (ns : List Node) (n : Node) : Prop := ∃ s ∈ ns, ∃ path, s.at? path = some n

theorem Node.all_isIn {ns : List Node} {s : Node} (hs : s ∈ ns) : s.All (IsIn ns) :=
  fun path _ hn => ⟨s, hs, path, hn⟩

/-- The nodes that the nodes of the component `c` of a module come from: those of the module,
    and those of the texts that are read again. -/
def Origin (typescript : Bool) (module : List Node) (c : Component) (n : Node) : Prop :=
  n.IsIn module ∨ ∃ t s, Written typescript c t ∧ Template.read typescript t = .ok s ∧ n.IsIn [s]

/-- The names of the pieces of state that the component `c` has. -/
def Component.HasState (typescript : Bool) (c : Component) (v : Text) : Prop :=
  ∃ b d x, c.bindProps typescript = .ok b ∧ b.extractState typescript = .ok d ∧ (x, v) ∈ d.setters

namespace Component

variable {typescript : Bool} {module : List Node} {c b d : Component} {p : Problem}

/-- All nodes of some trees come from the module of `c` or from what is read again. -/
abbrev Traces (typescript : Bool) (module : List Node) (c : Component) (holes : Bool)
    (ss : List Node) : Prop :=
  ∀ s ∈ ss, s.All (Node.Traced (Origin typescript module c) (c.HasState typescript) holes)

theorem all_of_written {t : Text} {s : Node} (ht : Written typescript c t)
    (hs : Template.read typescript t = .ok s) : s.All (Origin typescript module c) :=
  (Node.all_isIn List.mem_cons_self).mono fun _ hn => .inr ⟨t, s, ht, hs, hn⟩

theorem derives_renamed {origin : Node → Prop} {state : Text → Prop} {holes : Bool} (s : Node) :
    Node.Derives origin state holes s (c.renamed s) := by
  unfold renamed
  split
  · exact Node.derives_rename _ _ s
  · exact .refl s

theorem traces_bindProps (hc : Traces typescript module c false c.body)
    (hb : c.bindProps typescript = .ok b) : Traces typescript module c false b.body := by
  obtain ⟨aliases, hbound⟩ := bindProps_bound hb
  intro t ht
  rcases hbound.mem_cases ht with halias | ⟨s, hs, rfl | ⟨names, hform⟩⟩
  · have hok : Except.ok t ∈ c.aliasTexts.map (Template.read typescript) := by
      rw [hbound.texts]
      exact List.mem_map_of_mem halias
    obtain ⟨text, htext, hread⟩ := List.mem_map.1 hok
    exact (all_of_written (.prop htext) hread).traced
  · exact (derives_renamed s).all (hc s hs)
  · refine Node.all_reactiveForm ((derives_renamed s).all (hc s hs)) ?_ hform
    exact fun pattern init t hp ht => all_of_written (.follows hs hp) ht

theorem all_declaration (hb : c.bindProps typescript = .ok b)
    (hbody : Traces typescript module c false b.body) {s t : Node} {sd : StateDeclaration}
    (hs : s ∈ b.body) (hsd : StateDeclaration.ofStatement? s = .ok (some sd))
    (ht : sd.declaration typescript = .ok t) :
    t.All (Node.Traced (Origin typescript module c) (c.HasState typescript) false) := by
  obtain ⟨a, ha, hta⟩ := StateDeclaration.declaration_eq_ok ht
  have ha : a.All (Node.Traced (Origin typescript module c) (c.HasState typescript) false) :=
    (all_of_written (.variable hb hs hsd) ha).traced
  rcases hta with rfl | ⟨init, hinit, rfl⟩
  · exact ha
  · exact (Node.derives_fill (sd.all_initializer (hbody s hs) hsd hinit) a).all ha

theorem traces_extractState (hb : c.bindProps typescript = .ok b)
    (hd : b.extractState typescript = .ok d) (hbody : Traces typescript module c false b.body) :
    Traces typescript module c false d.body := by
  have hassigned (s : Node) : Node.Derives (Origin typescript module c) (c.HasState typescript)
      false s (s.assigned d.setters) :=
    Node.derives_assigned (fun q hq => ⟨b, d, q.1, hb, hd, hq⟩) s
  intro t ht
  obtain ⟨i, hi⟩ := List.mem_iff_getElem?.1 ht
  have hlt : i < b.body.length := by
    rw [← extractState_length hd]
    exact (List.getElem?_eq_some_iff.1 hi).1
  have hs := List.getElem_mem hlt
  rcases extractState_body hd (List.getElem?_eq_getElem hlt) with
    ⟨sd, u, hsd, hu, -, hsame⟩ | ⟨-, hsame | ⟨-, r, names, hform, hsame⟩⟩
  all_goals cases hi.symm.trans hsame
  · exact (hassigned u).all (all_declaration hb hbody hs hsd hu)
  · exact (hassigned _).all (hbody _ hs)
  · refine Node.all_reactiveForm ((hassigned _).all (hbody _ hs)) ?_ hform
    exact fun pattern init t hp ht => all_of_written (.reacts hb hd hs hp) ht

theorem traces_lowerMarkup (hmodule : Traces typescript module c false d.module)
    (hbody : Traces typescript module c false d.body) :
    Traces typescript module c true d.lowerMarkup.module ∧
      Traces typescript module c true d.lowerMarkup.body := by
  have hlowered := forall₂_lowerMarkup
    (R := Node.Derives (Origin typescript module c) (c.HasState typescript) true) .trans
    Node.derives_renameAttributes (fun _ => Node.derives_lowerLists)
    (fun _ n => Node.derives_lowerChoices n false) d
  exact ⟨Node.Derives.list hlowered.1 fun s hs => (hmodule s hs).mono fun _ => .withHoles,
    Node.Derives.list hlowered.2 fun s hs => (hbody s hs).mono fun _ => .withHoles⟩

theorem templated_bindProperty (c : Component) (q : Node) :
    Templated (bindProperty typescript c q) := by
  unfold bindProperty
  split
  · split
    · exact .ok _
    · dsimp only
      split
      · exact .ok _
      · exact (Template.templated_read _ _).bind fun _ _ => .ok _
  · split
    · exact .ok _
    · exact (Template.templated_read _ _).bind fun _ _ => .ok _
  · exact .ok _

theorem templated_bindProperties (ps : List Node) (c : Component) :
    Templated (bindProperties typescript ps c) := by
  induction ps generalizing c with
  | nil => exact .ok _
  | cons q ps ih =>
    exact (templated_bindProperty c q).bind fun _ _ => (ih _).bind fun _ _ => .ok _

/-- Binding props fails for a text only. -/
theorem templated_bindProps (c : Component) : Templated (c.bindProps typescript) := by
  have hlast (d : Component) :
      Templated (d.propagate typescript >>= fun q => Except.ok (ε := Problem) q.1) :=
    (templated_propagate d).bind fun _ _ => .ok _
  unfold bindProps
  dsimp only
  split
  · exact ((templated_bindProperties _ _).bind fun _ _ => .ok _).bind fun d _ => hlast d
  · exact hlast _
  · exact hlast _

/-- The setters that are written out fail for a text only. -/
theorem templated_script (options : Options) (c : Component) : Templated (c.script options) := by
  have hsetters (ns : List Text) :
      Templated (Document.setterItems options.typescript c ns) := by
    induction ns with
    | nil => exact .ok _
    | cons n ns ih =>
      unfold Document.setterItems
      split
      · exact ih
      · exact (Template.templated_read _ _).bind fun _ _ => ih.bind fun _ _ => .ok _
  exact (hsetters _).bind fun _ _ => .ok _

end Component

/-! ### What is returned -/

/-- Where lists correspond, so do their last elements. -/
theorem exists_of_forall₂_concat {α β : Type} {R : α → β → Prop} {xs : List α} {x : α}
    {ys : List β} (h : List.Forall₂ R (xs ++ [x]) ys) :
    ∃ ys' y, ys = ys' ++ [y] ∧ List.Forall₂ R xs ys' ∧ R x y := by
  induction xs generalizing ys with
  | nil =>
    obtain ⟨y, ys', hy, hnil, rfl⟩ := List.forall₂_cons_left_iff.1 h
    obtain rfl := List.forall₂_nil_left_iff.1 hnil
    exact ⟨[], y, rfl, .nil, hy⟩
  | cons z xs ih =>
    obtain ⟨w, ws, hw, hws, rfl⟩ := List.forall₂_cons_left_iff.1 h
    obtain ⟨ys', y, rfl, hys', hy⟩ := ih hws
    exact ⟨w :: ys', y, rfl, .cons hw hys', hy⟩

theorem Node.span_substitute (r : Text → Option Node) (n : Node) : (n.substitute r).span = n.span := by
  obtain ⟨k, s, ps⟩ := n
  unfold substitute
  split
  · rfl
  · rfl
  · split <;> rfl
  · rfl

/-- Effects are statements before the return, which stays. -/
theorem Effect.getLast?_lower {ss ss' : List Node} {r : Node} {ms : List Lifecycle}
    (hr : r.kind = .returnStatement) (h : lower (ss ++ [r]) = .ok (ss', ms)) :
    ss'.getLast? = some r := by
  obtain ⟨runs, hruns, rfl, -⟩ := lower_eq_ok h
  obtain ⟨before, ⟨calls, run⟩, rfl, -, hlast⟩ := exists_of_forall₂_concat hruns
  rw [List.flatMap_append]
  cases hlast with
  | kept => exact List.getLast?_concat
  | effect hs =>
    obtain ⟨sp, rfl, -⟩ := ofStatement?_eq_some hs
    cases hr

namespace Component

variable {typescript : Bool} {c d : Component} {o : Span → Prop}

/-- The end of a body, and that it is returned. -/
theorem Ended.exists_last (hc : c.Ended) : ∃ init sp e,
    c.body = init ++ [.mk .returnStatement sp [e]] ∧ c.returned? = some e ∧
      isReturnable e = true := by
  obtain ⟨init, sp, e, hbody, hreturned, -⟩ := hc.eq_append
  obtain ⟨init', sp', e', hbody', -, -, he'⟩ := hc.body.eq_append
  have hlast := (List.append_inj' (hbody.symm.trans hbody') rfl).2
  cases hlast
  exact ⟨init, sp, e, hbody, hreturned, he'⟩

/-- What the component returns is markup, or it has one of some stretches. -/
def Shows (o : Span → Prop) (c : Component) : Prop :=
  ∀ e, c.returned? = some e → e.isMarkup = true ∨ o e.span

/-- What is returned has the same stretch if the last statement echoes the last one before. -/
theorem Shows.of_last (h : c.Shows o) (hc : c.Ended)
    (hlast : ∀ init r, c.body = init ++ [r] → r.kind = .returnStatement →
      ∃ t, d.body.getLast? = some t ∧ r.Echoes t) : d.Shows o := by
  obtain ⟨init, sp, e, hbody, hreturned, he⟩ := hc.exists_last
  obtain ⟨t, ht, hechoes⟩ := hlast init _ hbody rfl
  obtain ⟨e', rfl, hmatching⟩ := hechoes sp e rfl he
  intro v hv
  rw [returned?, ht, Option.bind_some] at hv
  obtain ⟨sp', hsame⟩ := returnValue?_eq_some hv
  cases hsame
  rw [hmatching.markup, hmatching.span]
  exact h e hreturned

theorem Shows.of_forall₂ (h : c.Shows o) (hc : c.Ended)
    (hbody : List.Forall₂ Node.Echoes c.body d.body) : d.Shows o := by
  refine h.of_last hc fun init r hr _ => ?_
  rw [hr] at hbody
  obtain ⟨init', t, hd, -, ht⟩ := exists_of_forall₂_concat hbody
  exact ⟨t, by rw [hd, List.getLast?_concat], ht⟩

/-- The last statement of a component is not made reactive. -/
theorem Ended.ne_reactiveForm (hd : d.Ended) {s r : Node} {names : List Text}
    (h : reactiveForm typescript s = .ok (some (r, names))) : d.body.getLast? ≠ some r := by
  intro hlast
  obtain ⟨init, sp, e, hbody, -⟩ := hd.exists_last
  rw [hbody, List.getLast?_concat] at hlast
  cases hlast
  rcases reactiveForm_cases h with ⟨-, hr, -⟩ | ⟨p, init, t, -, -, hr, -⟩ <;> cases hr

theorem Shows.bindProps (h : c.Shows o) (hc : c.Ended) (hd : c.bindProps typescript = .ok d) :
    d.Shows o := by
  obtain ⟨aliases, hbound⟩ := bindProps_bound hd
  refine h.of_last hc fun init r hr _ => ⟨c.renamed r, ?_, ?_⟩
  · have hlength : c.body.length = init.length + 1 := by simp [hr]
    have hlast : d.body.getLast? = d.body[aliases.length + init.length]? := by
      rw [List.getLast?_eq_getElem?, hbound.length, hlength, ← Nat.add_assoc, Nat.add_sub_cancel]
    rcases hbound.statements init.length r (by simp [hr]) with hsame | ⟨-, t, names, hform, hsame⟩
    · exact hlast.trans hsame
    · exact absurd (hlast.trans hsame) ((hc.bindProps hd).ne_reactiveForm hform)
  · unfold renamed
    split
    · exact Node.echoes_rename _ _ r
    · exact .refl r

theorem Shows.extractState (h : c.Shows o) (hc : c.Ended)
    (hd : c.extractState typescript = .ok d) : d.Shows o := by
  refine h.of_last hc fun init r hr hk => ⟨_, ?_, Node.echoes_assigned d.setters r⟩
  have hlength : d.body.length = init.length + 1 := by rw [extractState_length hd]; simp [hr]
  have hlast : d.body.getLast? = d.body[init.length]? := by
    rw [List.getLast?_eq_getElem?, hlength, Nat.add_sub_cancel]
  rcases extractState_body hd (i := init.length) (s := r) (by simp [hr]) with
    ⟨sd, t, hsd, -⟩ | ⟨-, hsame | ⟨-, t, names, hform, hsame⟩⟩
  · -- A return declares no state.
    obtain ⟨k, sp, es⟩ := r
    obtain rfl : k = .returnStatement := hk
    cases hsd
  · exact hlast.trans hsame
  · exact absurd (hlast.trans hsame) ((hc.extractState hd).ne_reactiveForm hform)

theorem Shows.lowerMarkup (h : c.Shows o) (hc : c.Ended) : c.lowerMarkup.Shows o :=
  h.of_forall₂ hc (forall₂_lowerMarkup .trans Node.echoes_renameAttributes
    (fun _ => Node.echoes_lowerLists) (fun _ => Node.echoes_lowerChoices) c).2

theorem Shows.unmemo (h : c.Shows o) (hc : c.Ended) (hd : c.unmemo = .ok d) : d.Shows o := by
  obtain ⟨module, body, -, hbody, rfl⟩ := unmemo_eq_ok hd
  exact h.of_forall₂ hc ((Node.forall₂_of_unmemoList hbody).imp fun _ _ => Node.echoes_unmemo)

theorem Shows.lowerEffects (h : c.Shows o) (hc : c.Ended) (hd : c.lowerEffects = .ok d) :
    d.Shows o := by
  obtain ⟨body, ms, lifecycle, hlower, -, rfl⟩ := lowerEffects_eq_ok hd
  refine h.of_last hc fun init r hr hk => ⟨r, ?_, .refl r⟩
  rw [hr] at hlower
  exact Effect.getLast?_lower hk hlower

/-- The value of the variable that is returned is returned in its place, and shows markup. -/
theorem Ended.returned?_inlineMarkup (hc : c.Ended) {r e : Node} (hr : c.returned? = some r)
    (he : c.inlineMarkup.returned? = some e) :
    e = ((r.identifier?.bind c.markupTable.resolve).getD r).substitute c.markupTable.resolve := by
  obtain ⟨init, sp, r', hbody, hreturned, -⟩ := hc.exists_last
  cases hr.symm.trans hreturned
  have hmap : c.inlineMarkup.body =
      (showMarkup c.markupTable c.body).filterMap MarkupTable.withoutMarkup := rfl
  rw [returned?, hmap, hbody, showMarkup_concat, List.filterMap_append, fillReturn,
    Node.substitute_mk (by simp)] at he
  obtain ⟨last, hlast, he⟩ := Option.bind_eq_some_iff.1 he
  obtain rfl := Option.some.inj (List.getLast?_concat.symm.trans hlast)
  obtain ⟨sp', hsame⟩ := returnValue?_eq_some he
  cases hsame
  rfl

/-- Once markup variables are shown, what is returned and is no markup is what was returned,
    or it stands for the list that is the value of the variable that was returned. -/
theorem Shows.inlineMarkup (h : c.Shows o) (hc : c.Ended) {e : Node}
    (he : c.inlineMarkup.returned? = some e) (hmarkup : e.isMarkup = false) :
    o e.span ∨ ∃ r x v, c.returned? = some r ∧ r.identifier? = some x ∧
      c.markupTable.value? x = some v ∧ v.isPlaceholder = true ∧ e.span = v.span := by
  obtain ⟨init, sp, r, -, hreturned, -⟩ := hc.exists_last
  obtain rfl := hc.returned?_inlineMarkup hreturned he
  rw [Node.isMarkup, Node.kind_substitute] at hmarkup
  rw [Node.span_substitute]
  cases hresolved : r.identifier?.bind c.markupTable.resolve with
  | none =>
    rw [hresolved, Option.getD_none] at hmarkup
    refine .inl ((h r hreturned).resolve_left fun hr => ?_)
    rw [Node.isMarkup, hmarkup] at hr
    cases hr
  | some v =>
    obtain ⟨x, hx, hv⟩ := Option.bind_eq_some_iff.1 hresolved
    obtain ⟨u, resolve, hu, rfl⟩ := MarkupTable.exists_of_resolveWithin hv
    rw [hresolved, Option.getD_some, Node.kind_substitute] at hmarkup
    refine .inr ⟨r, x, u, hreturned, hx, hu, ?_, Node.span_substitute _ u⟩
    have hvalue := isMarkupValue_of_value? hu
    rwa [Node.isMarkupValue, Node.isMarkup, hmarkup, Bool.false_or] at hvalue

end Component

/-! ### Where problems show -/

/-- Where a problem of a source with a given module shows. -/
inductive Problem.Located (options : Options) (source : Text) (module : List Node) (p : Problem) :
    Prop
  /-- At the whole of a source that exports no component. -/
  | whole (h : p = ⟨.noExport, ⟨0, source.byteLength⟩⟩)
  /-- At a node of the module. -/
  | node {n : Node} (hn : n.IsIn module) (hp : p.At n)
  /-- At a node of a text that is written for a prop or a piece of state. -/
  | written {c : Component} {t : Text} {s n : Node}
      (hc : Component.ofModule source.byteLength module = .ok c)
      (ht : Written options.typescript c t) (hs : Template.read options.typescript t = .ok s)
      (hn : n.IsIn [s]) (hp : p.At n)
  /-- At the assignment that an effect gives back, in the place of the call of a setter. -/
  | setter {c : Component} {v : Text} (hc : Component.ofModule source.byteLength module = .ok c)
      (hv : c.HasState options.typescript v) (hcause : p.cause = .effectCleanup)
      (hp : p.span ∈ setterSpans v)
  /-- At the name that stands for a list, if a variable with that list as its value is
      returned. -/
  | list {c : Component} {r v : Node} {x : Text}
      (hc : compileThrough options [.props, .state, .placement, .lowering, .hooks] source = .ok c)
      (hr : c.returned? = some r) (hx : r.identifier? = some x)
      (hv : c.markupTable.value? x = some v) (hlist : v.isPlaceholder = true)
      (hp : p = ⟨.noMarkup, v.span⟩)

namespace Component

variable {options : Options} {source : Text} {module : List Node} {c b d e : Component}
  {p : Problem}

section Stages

variable (hc : ofModule source.byteLength module = .ok c)

include hc

theorem located_of_origin {n : Node} (hn : Origin options.typescript module c n) (hp : p.At n) :
    p.Located options source module := by
  rcases hn with hn | ⟨t, s, ht, hs, hn⟩
  · exact .node hn hp
  · exact .written hc ht hs hn hp

theorem located_of_hook? {holes : Bool} {m : Node} {k : Hook} (hm : m.hook? = some k)
    (htraced : Node.Traced (Origin options.typescript module c) (c.HasState options.typescript)
      holes m) (hp : p.At m) : p.Located options source module := by
  obtain ⟨n, hn, hp⟩ := htraced.exists_origin_of_hook? hm hp
  exact located_of_origin hc hn hp

theorem located_of_extractState_error (hb : c.bindProps options.typescript = .ok b)
    (hbody : Traces options.typescript module c false b.body)
    (h : b.extractState options.typescript = .error p) (hread : ∀ t, p.cause ≠ .template t) :
    p.Located options source module := by
  rcases exists_of_extractState_error hbody (fun s hs sd t hsd ht =>
    all_declaration hb hbody hs hsd ht) h with ⟨t, ht⟩ | ⟨m, hm, hp, hk, hcall⟩ | ⟨m, k, hm, hk, hp⟩
  · exact absurd ht (hread t)
  · obtain ⟨n, hn, hp⟩ := hm.exists_origin hp hk fun l pure hk => absurd hk (hcall l pure)
    exact located_of_origin hc hn hp
  · exact located_of_hook? hc hk hm hp

theorem located_of_checkPlacement_error
    (hmodule : Traces options.typescript module c false d.module)
    (hbody : Traces options.typescript module c false d.body)
    (h : d.checkPlacement = .error p) : p.Located options source module := by
  obtain ⟨m, hm, hmarkup, hp⟩ : ∃ m, Node.Traced (Origin options.typescript module c)
      (c.HasState options.typescript) false m ∧ m.isMarkup = true ∧ p.At m := by
    rcases of_bind_eq_error h with h | ⟨seen, -, h⟩
    · exact Placement.exists_of_checkList_error hmodule h
    · rcases of_bind_eq_error h with h | ⟨seen', -, h⟩
      · exact Placement.exists_of_checkList_error hbody h
      · cases h
  have hk : m.kind = .element ∨ m.kind = .fragment := by
    unfold Node.isMarkup at hmarkup
    split at hmarkup
    · exact .inl ‹_›
    · exact .inr ‹_›
    · cases hmarkup
  obtain ⟨n, hn, hp⟩ := hm.exists_origin hp (by rcases hk with hk | hk <;> rw [hk] <;> rfl)
    fun l pure hcall => by rcases hk with hk | hk <;> cases hk.symm.trans hcall
  exact located_of_origin hc hn hp

/-- Effects and memoizing hooks fail for a call of a hook, or for what an effect gives back. -/
theorem located_of_hooks_error (hmodule : Traces options.typescript module c true d.module)
    (hbody : Traces options.typescript module c true d.body)
    (h : (do (← d.lowerEffects).unmemo) = .error p) : p.Located options source module := by
  -- Effects are moved to new calls, which are no calls of hooks: only for these it is known
  -- where they come from.
  let P (m : Node) : Prop := ∀ k, m.hook? = some k → Node.Traced (Origin options.typescript module c)
    (c.HasState options.typescript) true m
  have hP (m : Node) (hm : m.hook? = none) : P m := fun k hk => by cases hm.symm.trans hk
  have hlocated {m : Node} {k : Hook} (hm : P m) (hk : m.hook? = some k) (hp : p.At m) :
      p.Located options source module := located_of_hook? hc hk (hm k hk) hp
  have hmodule' : ∀ s ∈ d.module, s.All P := fun s hs => (hmodule s hs).mono fun _ hm _ _ => hm
  have hbody' : ∀ s ∈ d.body, s.All P := fun s hs => (hbody s hs).mono fun _ hm _ _ => hm
  rcases of_bind_eq_error h with h | ⟨e, he, h⟩
  · rcases of_bind_eq_error h with h | ⟨⟨body, ms⟩, hlower, h⟩
    · rcases Effect.exists_of_lower_error hbody h with ⟨m, k, hm, hk, hp⟩ | ⟨hcause, m, hm, hp, hm'⟩
      · exact located_of_hook? hc hk hm hp
      · obtain ⟨n, hn, hp⟩ | ⟨v, hv, hp⟩ := hm.exists_origin_or hp hcause hm'.1 hm'.2
        · exact located_of_origin hc hn hp
        · exact .setter hc hv hcause hp
    · dsimp only at h
      split at h
      · next call hfind =>
        cases h
        obtain ⟨s, hs, hfind⟩ := Node.mem_of_findList? hfind
        obtain ⟨hcall, heffect⟩ := (Effect.all_lower hP hbody' hlower s hs).of_find? hfind
        obtain ⟨k, hk⟩ : ∃ k, call.hook? = some k := by
          cases hk : call.hook? with
          | none => rw [Node.isEffectCall, hk] at heffect; cases heffect
          | some k => exact ⟨k, rfl⟩
        obtain ⟨l, pure, hkind⟩ := Node.kind_of_hook? hk
        exact hlocated hcall hk ⟨rfl, by rw [hkind]; rfl⟩
      · cases h
  · obtain ⟨body, ms, lifecycle, hlower, -, rfl⟩ := lowerEffects_eq_ok he
    rcases of_bind_eq_error h with h | ⟨ns, -, h⟩
    · obtain ⟨s, hs, h⟩ := Node.exists_of_unmemoList_error h
      obtain ⟨m, k, hm, hk, hp⟩ := Node.exists_of_unmemo_error hP (hmodule' s hs) h
      exact hlocated hm hk hp
    · rcases of_bind_eq_error h with h | ⟨ns', -, h⟩
      · obtain ⟨s, hs, h⟩ := Node.exists_of_unmemoList_error h
        obtain ⟨m, k, hm, hk, hp⟩ :=
          Node.exists_of_unmemo_error hP (Effect.all_lower hP hbody' hlower s hs) h
        exact hlocated hm hk hp
      · cases h

end Stages

/-- What is written at last fails for a text, or for what is returned. -/
theorem located_of_document_error
    (hd : compileThrough options [.props, .state, .placement, .lowering, .hooks] source = .ok d)
    (hshows : d.Shows fun s => ∃ n : Node, n.IsIn module ∧ n.span = s)
    (h : d.inlineMarkup.document options = .error p) (hread : ∀ t, p.cause ≠ .template t) :
    p.Located options source module := by
  have hended := ended_compileThrough hd
  rcases of_bind_eq_error h with h | ⟨script, -, h⟩
  · obtain ⟨t, ht⟩ := templated_script options _ p h
    exact absurd ht (hread t)
  · rcases of_bind_eq_error h with h | ⟨markup, -, h⟩
    · unfold Component.markup at h
      split at h
      · next hnone =>
        obtain ⟨init, s, r, -, hreturned, -⟩ := hended.inlineMarkup.exists_last
        cases hnone.symm.trans hreturned
      · next r hreturned =>
        split at h
        · cases h
        · next hmarkup =>
          cases h
          rcases hshows.inlineMarkup hended hreturned (by simpa using hmarkup) with
            ⟨n, hn, hspan⟩ | ⟨r', x, v, hr', hx, hv, hlist, hspan⟩
          · exact .node hn ⟨hspan.symm, rfl⟩
          · exact .list hd hr' hx hv hlist (by rw [hspan])
    · cases h

/-- Until its markup variables are shown, a component returns markup, or what has the stretch of
    a node of the module. -/
theorem shows_of_passes {f : Component} (hended : c.Ended)
    (hc : ofModule source.byteLength module = .ok c)
    (hb : c.bindProps options.typescript = .ok b)
    (hd : b.extractState options.typescript = .ok d) (he : d.lowerMarkup.lowerEffects = .ok e)
    (hf : e.unmemo = .ok f) : f.Shows fun s => ∃ n : Node, n.IsIn module ∧ n.span = s := by
  have hshows : c.Shows fun s => ∃ n : Node, n.IsIn module ∧ n.span = s := by
    intro r hr
    exact .inr ⟨r, returned?_ofModule (fun s => Node.all_isIn) hc hr, rfl⟩
  have hb' := hended.bindProps hb
  have hd' := hb'.extractState hd
  have he' := hd'.lowerMarkup.lowerEffects he
  exact ((((hshows.bindProps hended hb).extractState hb' hd).lowerMarkup hd').lowerEffects
    hd'.lowerMarkup he).unmemo he' hf

/-- Every step fails for a text that it has written, or with a problem that is so located. -/
theorem located_of_passes_error (hc : ofModule source.byteLength module = .ok c)
    (h : Pass.all.foldlM (fun c p => p.run options.typescript c) c = .error p)
    (hread : ∀ t, p.cause ≠ .template t) : p.Located options source module := by
  have hin : ∀ s ∈ module, s.All (Origin options.typescript module c) :=
    fun s hs => (Node.all_isIn hs).mono fun _ => .inl
  obtain ⟨hmodule, hbody⟩ : Traces options.typescript module c false c.module ∧
      Traces options.typescript module c false c.body := all_ofModule hin hc
  rcases of_bind_eq_error (x := c.bindProps options.typescript) h with h | ⟨b, hb, h⟩
  · obtain ⟨t, ht⟩ := templated_bindProps c p h
    exact absurd ht (hread t)
  have hbody := traces_bindProps hbody hb
  rcases of_bind_eq_error (x := b.extractState options.typescript) h with h | ⟨d, hd, h⟩
  · exact located_of_extractState_error hc hb hbody h hread
  have hbody := traces_extractState hb hd hbody
  have hmodule : Traces options.typescript module c false d.module := by
    rwa [(extractState_sameFrame hd).module, (bindProps_bindsFields hb).module]
  rcases of_bind_eq_error (x := d.checkPlacement) h with h | ⟨d', hd', h⟩
  · exact located_of_checkPlacement_error hc hmodule hbody h
  rw [checkPlacement_eq_ok hd'] at h
  obtain ⟨hmodule, hbody⟩ := traces_lowerMarkup hmodule hbody
  rcases of_bind_eq_error (x := do (← d.lowerMarkup.lowerEffects).unmemo) h with h | ⟨f, -, h⟩
  · exact located_of_hooks_error hc hmodule hbody h
  · cases h

theorem located_of_error (h : compile? options source = .error p)
    (hsource : p.cause ≠ .unreadable) (hread : ∀ t, p.cause ≠ .template t) :
    ∃ module, parse options source = .ok module ∧ p.Located options source module := by
  rcases of_bind_eq_error h with h | ⟨final, hfinal, h⟩
  · rcases of_bind_eq_error h with h | ⟨module, hmodule, h⟩
    · unfold parse at h
      split at h
      · cases h
      · cases h
        exact absurd rfl hsource
    refine ⟨module, hmodule, ?_⟩
    rcases of_bind_eq_error h with h | ⟨c, hc, h⟩
    · rcases exists_of_ofModule_error (fun s => Node.all_isIn) h with h | ⟨n, hn, hp⟩
      · exact .whole h
      · exact .node hn hp
    · exact located_of_passes_error hc h hread
  · obtain ⟨f, hf, rfl⟩ := exists_hooks_of_compileThrough_all hfinal
    obtain ⟨module, c, b, d, e, hmodule, hc, hb, hd, he, hunmemo⟩ := compileThrough_hooks_eq_ok hf
    have hshows := shows_of_passes (ended_located hmodule hc) hc hb hd he hunmemo
    exact ⟨module, hmodule, located_of_document_error hf hshows h hread⟩

end Component

/-- The problem that a source cannot be compiled for. -/
def problem? (options : Options) (source : Text) : Option Problem :=
  match compile? options source with
  | .error p => some p
  | .ok _ => none

theorem compile?_of_problem? {options : Options} {source : Text} {p : Problem}
    (h : problem? options source = some p) : compile? options source = .error p := by
  unfold problem? at h
  split at h
  · cases h
    assumption
  · cases h

/-- A failure, other than that of a source or a generated text that cannot be read, is
    reported with the position of its stretch, and the stretch is so located. -/
theorem failure_located {options : Options} {source : Text} {f : Failure}
    (h : compile options source = .error f) (hfault : f.fault ≠ .parse)
    (hcode : f.diagnostic.code ≠ Rule.template.code) :
    ∃ module p, parse options source = .ok module ∧ compile? options source = .error p ∧
      f = p.failure source options ∧ f.diagnostic.span = p.span ∧
      f.diagnostic.position = source.position f.diagnostic.span.start ∧
      p.Located options source module := by
  obtain ⟨p, hp, rfl⟩ : ∃ p, compile? options source = .error p ∧ p.failure source options = f := by
    unfold compile at h
    cases hcompile : compile? options source with
    | error p =>
      rw [hcompile] at h
      cases h
      exact ⟨p, rfl, rfl⟩
    | ok d =>
      rw [hcompile] at h
      cases h
  have hsource : p.cause ≠ .unreadable := fun hc => hfault (by rw [Problem.failure, hc]; rfl)
  have hread : ∀ t, p.cause ≠ .template t := by
    intro t hc
    refine hcode ?_
    simp only [Problem.failure, Problem.diagnostic, hc]
    rfl
  obtain ⟨module, hmodule, hlocated⟩ := Component.located_of_error hp hsource hread
  refine ⟨module, p, hmodule, hp, rfl, ?_, ?_, hlocated⟩
  all_goals
    obtain ⟨c, s⟩ := p
    cases c
    case unreadable => exact absurd rfl hsource
    case template t => exact absurd rfl (hread t)
    all_goals rfl

/-- A component with a reducer, on its second line. -/
def reducedSource : Text :=
  "export default () => \x7b\n const s = useReducer(f); return <p/>; \x7d;"

theorem reducer_located : ∃ (f : Failure) (module : List Node) (p : Problem),
    compile {} reducedSource = .error f ∧ f.fault ≠ .parse ∧
      f.diagnostic.code ≠ Rule.template.code ∧ parse {} reducedSource = .ok module ∧
      f.diagnostic.span = p.span ∧ f.diagnostic.position = reducedSource.position 34 ∧
      p.Located {} reducedSource module := by
  have hproblem : problem? {} reducedSource = some ⟨.reducer, ⟨34, 47⟩⟩ := by
    rw [(by apply String.toList_ofList : reducedSource = _)]
    decide +kernel
  have hcompile : compile {} reducedSource =
      .error (Problem.failure ⟨.reducer, ⟨34, 47⟩⟩ reducedSource {}) := by
    rw [compile, compile?_of_problem? hproblem]
    rfl
  have hfault : (Problem.failure ⟨.reducer, ⟨34, 47⟩⟩ reducedSource {}).fault ≠ .parse := by
    intro h
    cases h
  have hcode : (Problem.failure ⟨.reducer, ⟨34, 47⟩⟩ reducedSource {}).diagnostic.code ≠
      Rule.template.code := by
    show Rule.reducer.code ≠ _
    decide
  obtain ⟨module, p, hmodule, -, -, hspan, hposition, hlocated⟩ :=
    failure_located hcompile hfault hcode
  exact ⟨_, module, p, hcompile, hfault, hcode, hmodule, hspan, hposition, hlocated⟩

/-- The problem of a source, and whether it has the stretch of a node of the source. -/
def sighting? (source : Text) : Option (Problem × Option Bool) :=
  (problem? {} source).map fun p =>
    (p, (parse {} source).toOption.map (Node.anyList (·.span = p.span)))

/-- A list that is returned by its variable, a reducer in a pattern that is read again, and a
    cleanup that sets state are reported with stretches of no node of the source. -/
theorem reported_at_no_node :
    sighting? "export default (\x7b xs \x7d) => \x7b const v = xs.map(x => <li/>); return v; \x7d;" =
      some (⟨.noMarkup, ⟨1, 16⟩⟩, some false) ∧
    sighting? "export default (\x7b p \x7d) => \x7b const \x7b a = useReducer() \x7d = p; return <p/>; \x7d;" =
      some (⟨.reducer, ⟨7, 19⟩⟩, some false) ∧
    sighting? "export default () => \x7b const [n, setN] = useState(0);
          useEffect(() => \x7b return setN(1); \x7d); return <p/>; \x7d;" =
      some (⟨.effectCleanup, ⟨1, 14⟩⟩, some false) := by
  refine ⟨?_, ?_, ?_⟩
  all_goals
    conv =>
      enter [1, 1]
      apply String.toList_ofList
    decide +kernel

end Unhook
