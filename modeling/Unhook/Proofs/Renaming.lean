import Unhook.Proofs.Declared
import Unhook.Proofs.StatePair

/-!
# Renaming the parameter of a component

A component that takes its props as one object has its parameter renamed
throughout its body. By the rules of scoping, a reference of that name is one to
the parameter if no function, block, loop or `catch` between the statement of the
body and the reference binds the name again, and if it is no name of a type.
Renaming goes by the name alone, so it changes the other references of that name
too, and properties read from them are taken for props.

* `Node.Names`: a reference of some name stands at the end of a path;
* `Node.RefersTo`: it is moreover one to what has this name outside the tree;
* `Node.RenamesAt`: a tree is another one in which references at some paths have
  a new name;
* `Component.renames_parameter_iff`: which references are renamed, which
  properties are props, and when these are just those of the parameter.
-/

namespace Unhook

/-- A kind of reference, to `new`. -/
def Kind.naming (new : Text) : Kind → Kind
  | .identifier _ => .identifier new
  | .target _ => .target new
  | .tagRef _ => .tagRef new
  | .typeName _ => .typeName new
  | k => k

namespace Kind

variable {old new : Text} {k : Kind}

theorem rename_of_reference (h : k.reference? = some old) : k.rename old new = k.naming new := by
  cases k
  case identifier | target | tagRef | typeName =>
    cases h
    simp [rename, naming]
  all_goals cases h

theorem rename_of_not_reference (h : k.reference? ≠ some old) : k.rename old new = k := by
  cases k
  case identifier x | target x | tagRef x | typeName x =>
    have hne : x ≠ old := fun hx => h (congrArg some hx)
    simp [rename, hne]
  all_goals rfl

theorem naming_of_reference (h : k.reference? = some new) : k.naming new = k := by
  cases k
  case identifier | target | tagRef | typeName =>
    cases h
    rfl
  all_goals cases h

theorem reference?_naming (new : Text) (h : k.reference? = some old) :
    (k.naming new).reference? = some new := by
  cases k
  case identifier | target | tagRef | typeName => rfl
  all_goals cases h

/-- Nothing is made into what is no reference. -/
theorem rename_eq_iff {k k' : Kind} (h : k'.reference? = none) :
    k.rename old new = k' ↔ k = k' := by
  by_cases hk : k.reference? = some old
  · have hname := reference?_naming new hk
    rw [rename_of_reference hk]
    refine ⟨fun he => ?_, fun he => ?_⟩
    · rw [he, h] at hname
      cases hname
    · rw [he, h] at hk
      cases hk
  · rw [rename_of_not_reference hk]

theorem rename_eq_identifier :
    k.rename old new = .identifier new ↔ k = .identifier old ∨ k = .identifier new := by
  cases k
  case identifier x => by_cases hx : x = old <;> simp [rename, hx]
  all_goals
    constructor
    · intro h
      cases h
    · rintro (h | h) <;> cases h

end Kind

namespace Node

/-- Whether what stands at the end of a path is no name of a type. The name that a
    `typeof` asks for is none; `queried` says whether the tree itself is, or begins,
    such a name. -/
def isValueAt (queried : Bool) (n : Node) : (path : List Nat) → Bool
  | [] =>
    match n.kind with
    | .typeName _ => queried
    | _ => true
  | i :: path =>
    let queried :=
      match n.kind with
      | .typeQuery => i = 0
      | .qualified _ => queried
      | _ => false
    (n.parts[i]?.map (·.isValueAt queried path)).getD false

/-- A reference of the name `x` stands at the end of a path. -/
def Names (x : Text) (n : Node) (path : List Nat) : Prop :=
  ∃ m, n.at? path = some m ∧ m.kind.reference? = some x

/-- A reference stands at the end of a path, to what is called `x` outside the tree:
    it is no name of a type, and nothing on the way to it binds `x`. -/
def RefersTo (x : Text) (n : Node) (path : List Nat) : Prop :=
  n.Names x path ∧ n.isValueAt false path = true ∧ x ∉ n.namesAround path

/-- The tree `t` is `s` in which the references at the paths in `r` are ones to `new`,
    and nothing else is changed. -/
def RenamesAt (new : Text) (r : List Nat → Prop) (s t : Node) : Prop :=
  ∀ path, (s.at? path = none → t.at? path = none) ∧ ∀ m, s.at? path = some m →
    ∃ m', t.at? path = some m' ∧ m'.span = m.span ∧ m'.parts.length = m.parts.length ∧
      (r path → m'.kind = m.kind.naming new) ∧ (¬ r path → m'.kind = m.kind)

variable {old new : Text}

theorem rename_eq (n : Node) :
    n.rename old new = mk (n.kind.rename old new) n.span (n.parts.map (rename old new)) := by
  obtain ⟨k, s, ps⟩ := n
  rw [rename, renameList_eq]
  rfl

theorem at?_rename (n : Node) (path : List Nat) :
    (n.rename old new).at? path = (n.at? path).map (rename old new) := by
  induction path generalizing n with
  | nil => rfl
  | cons i path ih =>
    rw [at?_cons, at?_cons, rename_eq, parts_mk, List.getElem?_map]
    cases n.parts[i]? with
    | none => rfl
    | some m => exact ih m

/-- Renaming leaves all bindings as they are. -/
theorem namesAround_rename (n : Node) (path : List Nat) :
    (n.rename old new).namesAround path = n.namesAround path := by
  induction path generalizing n with
  | nil => rfl
  | cons i path ih =>
    rw [namesAround, namesAround, binds_kept (keepsScopes_rename old new), rename_eq, parts_mk,
      List.getElem?_map]
    cases n.parts[i]? with
    | none => rfl
    | some m =>
      show n.binds i ++ (m.rename old new).namesAround path = n.binds i ++ m.namesAround path
      rw [ih m]

/-- Exactly the references of the old name are renamed, wherever they stand. -/
theorem renamesAt_rename (old new : Text) (s : Node) :
    RenamesAt new (s.Names old) s (s.rename old new) := by
  intro path
  refine ⟨fun h => by rw [at?_rename, h]; rfl, fun m hm => ⟨m.rename old new, ?_, ?_⟩⟩
  · rw [at?_rename, hm]
    rfl
  · rw [rename_eq]
    refine ⟨rfl, List.length_map _, ?_, fun hr => ?_⟩
    · rintro ⟨m', hm', href⟩
      obtain rfl := Option.some.inj (hm.symm.trans hm')
      exact Kind.rename_of_reference href
    · exact Kind.rename_of_not_reference fun href => hr ⟨m, hm, href⟩

theorem rename_self (x : Text) (n : Node) : n.rename x x = n := by
  have hkind (k : Kind) : k.rename x x = k := by
    by_cases h : k.reference? = some x
    · rw [Kind.rename_of_reference h, Kind.naming_of_reference h]
    · exact Kind.rename_of_not_reference h
  induction n with
  | mk k s ps ih =>
    rw [rename_eq, kind_mk, hkind, span_mk, parts_mk]
    exact Untouched.mk_map ih

theorem renamesAt_self {s : Node} {r : List Nat → Prop} (hr : ∀ path, r path → s.Names new path) :
    RenamesAt new r s s := by
  refine fun path => ⟨id, fun m hm => ⟨m, hm, rfl, rfl, fun h => ?_, fun _ => rfl⟩⟩
  obtain ⟨n, hn, href⟩ := hr path h
  obtain rfl := Option.some.inj (hm.symm.trans hn)
  exact (Kind.naming_of_reference href).symm

/-- They are just the references to what has the old name outside the tree if there are
    no others of that name. -/
theorem renamesAt_refersTo_iff (s : Node) :
    RenamesAt new (s.RefersTo old) s (s.rename old new) ↔
      old = new ∨ ∀ path, s.Names old path → s.RefersTo old path := by
  refine ⟨fun h => ?_, ?_⟩
  · by_contra hne
    obtain ⟨hnew, hpath⟩ := not_or.1 hne
    obtain ⟨path, hnames, hrefers⟩ : ∃ path, s.Names old path ∧ ¬ s.RefersTo old path := by
      simpa using hpath
    -- The reference is renamed although it is not one of those in question.
    obtain ⟨m, hm, href⟩ := hnames
    obtain ⟨m', hm', -, -, -, hsame⟩ := (h path).2 m hm
    obtain ⟨m'', hm'', -, -, hrenamed, -⟩ := (renamesAt_rename old new s path).2 m hm
    obtain rfl := Option.some.inj (hm'.symm.trans hm'')
    have hkind := (hrenamed ⟨m, hm, href⟩).symm.trans (hsame hrefers)
    have hname := Kind.reference?_naming new href
    rw [hkind, href] at hname
    exact hnew (Option.some.inj hname)
  · rintro (rfl | hall)
    · rw [rename_self]
      exact renamesAt_self fun _ h => h.1
    · have hiff (path : List Nat) : s.RefersTo old path ↔ s.Names old path :=
        ⟨And.left, hall path⟩
      simpa only [RenamesAt, hiff] using renamesAt_rename old new s

/-- What is taken from the new name once the tree is renamed was taken from the old
    name, or from the new one. -/
theorem takes_rename {f : Text} (n : Node) :
    (n.rename old new).Takes new f ↔ n.Takes old f ∨ n.Takes new f := by
  have hkind (o : Node) : (o.rename old new).kind = .identifier new ↔
      o.kind = .identifier old ∨ o.kind = .identifier new := by
    rw [rename_eq, kind_mk, Kind.rename_eq_identifier]
  unfold Takes
  rw [rename_eq, kind_mk, parts_mk]
  constructor
  · rintro (⟨link, o, hk, hps, ho⟩ | ⟨definite, p, t, init, hk, hps, hinit, hf⟩)
    · have hk := (Kind.rename_eq_iff rfl).1 hk
      obtain ⟨o, ho', rfl⟩ := List.map_eq_singleton_iff.1 hps
      exact ((hkind o).1 ho).imp (fun ho => .inl ⟨link, o, hk, ho', ho⟩)
        fun ho => .inl ⟨link, o, hk, ho', ho⟩
    · have hk := (Kind.rename_eq_iff rfl).1 hk
      obtain ⟨p, r, hp, rfl, hr⟩ := List.map_eq_cons_iff.1 hps
      obtain ⟨t, q, rfl, rfl, hq⟩ := List.map_eq_cons_iff.1 hr
      obtain ⟨init, rfl, rfl⟩ := List.map_eq_singleton_iff.1 hq
      rw [keyNames_rename] at hf
      exact ((hkind init).1 hinit).imp (fun hi => .inr ⟨definite, p, t, init, hk, hp, hi, hf⟩)
        fun hi => .inr ⟨definite, p, t, init, hk, hp, hi, hf⟩
  · -- What it is taken from has the new name now, whichever it had.
    rintro ((⟨link, o, hk, hps, ho⟩ | ⟨definite, p, t, init, hk, hps, hinit, hf⟩) |
      (⟨link, o, hk, hps, ho⟩ | ⟨definite, p, t, init, hk, hps, hinit, hf⟩))
    · exact .inl ⟨link, _, by rw [hk]; rfl, by rw [hps]; rfl, (hkind o).2 (.inl ho)⟩
    · exact .inr ⟨definite, _, _, _, by rw [hk]; rfl, by rw [hps]; rfl, (hkind init).2 (.inl hinit),
        by rwa [keyNames_rename]⟩
    · exact .inl ⟨link, _, by rw [hk]; rfl, by rw [hps]; rfl, (hkind o).2 (.inr ho)⟩
    · exact .inr ⟨definite, _, _, _, by rw [hk]; rfl, by rw [hps]; rfl, (hkind init).2 (.inr hinit),
        by rwa [keyNames_rename]⟩

end Node

namespace Component

variable {typescript : Bool} {c c' : Component}

theorem mem_addField {f : Field} {x : Text} :
    x ∈ (c.addField f).fields.map Field.name ↔ x ∈ c.fields.map Field.name ∨ x = f.name := by
  unfold addField
  split
  · next h =>
    obtain ⟨g, hg, hname⟩ := List.any_eq_true.1 h
    have hmem : f.name ∈ c.fields.map Field.name :=
      List.mem_map.2 ⟨g, hg, of_decide_eq_true hname⟩
    exact ⟨.inl, fun h => h.elim id fun h => h ▸ hmem⟩
  · simp

theorem mem_addFields {names : List Text} {x : Text} :
    x ∈ ((names.foldl (fun c n => c.addField ⟨n, none⟩) c).fields.map Field.name) ↔
      x ∈ c.fields.map Field.name ∨ x ∈ names := by
  induction names generalizing c with
  | nil => simp
  | cons n names ih => rw [List.foldl_cons, ih, mem_addField, or_assoc, List.mem_cons]

/-- The props of one object are what is taken from the parameter's name, at any depth. -/
theorem mem_bindObject {p f : Text} :
    f ∈ (c.bindObject p).fields.map Field.name ↔ f ∈ c.fields.map Field.name ∨
      ∃ s ∈ c.body, ∃ path m, s.at? path = some m ∧ (m.Takes p f ∨ m.Takes propsObject f) := by
  have hread (s : Node) : f ∈ (s.rename p propsObject).fieldsRead propsObject ↔
      ∃ path m, s.at? path = some m ∧ (m.Takes p f ∨ m.Takes propsObject f) := by
    simp only [Node.mem_fieldsRead, Node.at?_rename, Option.map_eq_some_iff,
      exists_exists_and_eq_and, Node.takes_rename]
  show f ∈ ((Node.fieldsReadList propsObject (Node.renameList p propsObject c.body)).foldl _
    { c with body := Node.renameList p propsObject c.body }).fields.map Field.name ↔ _
  rw [mem_addFields, Node.fieldsReadList_eq, Node.renameList_eq, List.mem_flatMap]
  simp only [List.mem_map, exists_exists_and_eq_and, hread]

theorem bindProps_whole {p : Text} {sp : Span} {ps : List Node}
    (hp : c.params.head?.map Node.pattern = some (.mk (.binding p) sp ps)) :
    c.bindProps typescript =
      (do
        let d ← ({ c with form := formOf c.params }.bindObject p).propagate typescript
        return d.1) := by
  unfold bindProps
  simp only [hp]
  rfl

/-- A prop of a component that takes all of them as the object `p`, by the rules of
    scoping: a property that is taken from `p` where nothing on the way binds that name
    again, or from the object of all props by its own name. -/
def HasProp (p f : Text) (c : Component) : Prop :=
  f ∈ c.fields.map Field.name ∨ ∃ s ∈ c.body, ∃ path m, s.at? path = some m ∧
    (m.Takes p f ∧ p ∉ s.namesAround path ∨ m.Takes propsObject f)

/-- A component that takes its props as one object, called `p`. Finding its props goes
    wrong for nothing but a text that cannot be read. Otherwise

    * its statements are those that it had, in which exactly the references of the name
      `p` are renamed, some of them made reactive;
    * what is bound around a reference stays the same;
    * in a statement, exactly the references to the parameter are renamed if and only if
      there are no others of that name: none is the name of a type, and none is bound
      within the statement;
    * the props that are added are the properties that are taken from `p`, whatever it
      is bound to, and those taken from the object of all props by its own name;
    * these are just the props by the rules of scoping if and only if every property that
      is taken from another `p` is such a prop anyway. -/
theorem renames_parameter_iff {p : Text} {sp : Span} {ps : List Node}
    (hp : c.params.head?.map Node.pattern = some (.mk (.binding p) sp ps)) :
    Templated (c.bindProps typescript) ∧ ∀ c', c.bindProps typescript = .ok c' →
      (c'.body.length = c.body.length ∧
        c'.Reacts typescript (c.body.map (Node.rename p propsObject))) ∧
      (∀ s ∈ c.body, Node.RenamesAt propsObject (s.Names p) s (s.rename p propsObject) ∧
        (∀ path, (s.rename p propsObject).namesAround path = s.namesAround path) ∧
        (Node.RenamesAt propsObject (s.RefersTo p) s (s.rename p propsObject) ↔
          p = propsObject ∨ ∀ path, s.Names p path → s.RefersTo p path)) ∧
      (∀ f, f ∈ c'.fields.map Field.name ↔ f ∈ c.fields.map Field.name ∨
        ∃ s ∈ c.body, ∃ path m, s.at? path = some m ∧ (m.Takes p f ∨ m.Takes propsObject f)) ∧
      ((∀ f, f ∈ c'.fields.map Field.name ↔ c.HasProp p f) ↔
        ∀ s ∈ c.body, ∀ path m f, s.at? path = some m → m.Takes p f → p ∈ s.namesAround path →
          c.HasProp p f) := by
  rw [bindProps_whole hp]
  refine ⟨(templated_propagate _).bind fun _ _ => .ok _, fun c' h => ?_⟩
  obtain ⟨⟨d, n⟩, hd, h⟩ := of_bind_eq_ok h
  cases h
  obtain ⟨hbody, -, -⟩ := bindObject_body p { c with form := formOf c.params }
  have hfields (f : Text) : f ∈ d.fields.map Field.name ↔ f ∈ c.fields.map Field.name ∨
      ∃ s ∈ c.body, ∃ path m, s.at? path = some m ∧ (m.Takes p f ∨ m.Takes propsObject f) := by
    rw [(propagate_sameFrame hd).fields, mem_bindObject]
  refine ⟨⟨?_, ?_⟩, fun s _ => ⟨Node.renamesAt_rename _ _ s, s.namesAround_rename,
    s.renamesAt_refersTo_iff⟩, hfields, ?_⟩
  · rw [(propagate_sameState hd).length, hbody, List.length_map]
  · rw [← hbody]
    exact propagate_reacts hd (.refl _)
  · refine ⟨fun h s hs path m f hm ht _ => ?_, fun h f => ?_⟩
    · exact (h f).1 ((hfields f).2 (.inr ⟨s, hs, path, m, hm, .inl ht⟩))
    · rw [hfields]
      constructor
      · rintro (hf | ⟨s, hs, path, m, hm, ht | ht⟩)
        · exact .inl hf
        · by_cases hbound : p ∈ s.namesAround path
          · exact h s hs path m f hm ht hbound
          · exact .inr ⟨s, hs, path, m, hm, .inl ⟨ht, hbound⟩⟩
        · exact .inr ⟨s, hs, path, m, hm, .inr ht⟩
      · rintro (hf | ⟨s, hs, path, m, hm, ht⟩)
        · exact .inl hf
        · exact .inr ⟨s, hs, path, m, hm, ht.imp_left And.left⟩

/-- A component that reads its props within a function, by a pattern and in markup. -/
def closureSource : Text :=
  "export default (p) => \x7b
    const f = q => p.a + q;
    const \x7b b \x7d = p;
    return <i>\x7bf(b)\x7d</i>;
  \x7d;"

theorem closure_renames_parameter : ∃ c c' s m, compileThrough {} [] closureSource = .ok c ∧
    c.bindProps false = .ok c' ∧ c.body[0]? = some s ∧ c'.body.length = 3 ∧
    (s.rename "p" propsObject).at? [0, 2, 3, 0, 0] = some m ∧ m.kind = .identifier propsObject ∧
    ("a" : Text) ∈ c'.fields.map Field.name := by
  have hsource : ((compileThrough {} [] closureSource).toOption.bind fun c =>
      (c.bindProps false).toOption.bind fun _ => c.body[0]?.bind fun s =>
      (s.at? [0, 2, 3, 0, 0]).map fun m =>
        (c.params.head?.map fun q => q.pattern.binding?, c.body.length, m.kind,
          s.fieldsRead "p")) =
      some (some (some ("p" : Text)), 3, .identifier "p", [("a" : Text)]) := by
    rw [(by apply String.toList_ofList : closureSource = _)]
    decide +kernel
  obtain ⟨c, hc, hsource⟩ := of_toOption_bind hsource
  obtain ⟨c', hc', hsource⟩ := of_toOption_bind hsource
  obtain ⟨s, hs, hsource⟩ := Option.bind_eq_some_iff.1 hsource
  obtain ⟨m, hm, hsource⟩ := Option.map_eq_some_iff.1 hsource
  simp only [Prod.mk.injEq] at hsource
  obtain ⟨hparam, hlength, hkind, hfields⟩ := hsource
  obtain ⟨q, hq, hbinding⟩ := Option.map_eq_some_iff.1 hparam
  have hp : c.params.head?.map Node.pattern =
      some (.mk (.binding "p") q.pattern.span q.pattern.parts) := by
    rw [hq, Option.map_some, ← Node.binding?_eq_some.1 hbinding]
    cases q.pattern
    rfl
  have hmem := List.mem_of_getElem? hs
  obtain ⟨⟨hlength', -⟩, hrenames, hnames, -⟩ :=
    (renames_parameter_iff hp).2 c' hc'
  obtain ⟨m', hm', -, -, hrenamed, -⟩ := ((hrenames s hmem).1 [0, 2, 3, 0, 0]).2 m hm
  obtain ⟨path, n, hn, ht⟩ := Node.mem_fieldsRead.1 (hfields ▸ List.mem_singleton_self ("a" : Text))
  refine ⟨c, c', s, m', hc, hc', hs,
    hlength'.trans hlength, hm', ?_, (hnames _).2 (.inr ⟨s, hmem, path, n, hn, .inl ht⟩)⟩
  rw [hrenamed ⟨m, hm, by rw [hkind]; rfl⟩, hkind]
  rfl

/-- A function that has a parameter of the same name reads from all props, and what it
    reads is declared. -/
theorem shadowed_parameter_renamed :
    ((compileThrough {} [] "export default (p) => \x7b const f = p => p.a; return <b>\x7bf(p)\x7d</b>; \x7d;").toOption.bind
      fun c => c.body[0]?.map fun s => s.namesAround [0, 2, 3, 0]) = some [("p" : Text)] ∧
    (compile? {} "export default (p) => \x7b const f = p => p.a; return <b>\x7bf(p)\x7d</b>; \x7d;").toOption.map
        (fun doc => (doc.props, doc.script)) =
      some ([("a" : Text)], [("export let a;" : Text), ("const f = (p) => $$props.a;" : Text)]) := by
  decide +kernel

end Component

end Unhook
