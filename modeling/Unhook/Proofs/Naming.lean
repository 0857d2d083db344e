import Unhook.Proofs.Reading.Alias
import Unhook.Proofs.Renaming

/-!
# The names of props and their aliases

A prop is named by a key of a pattern or by what stands after a dot, and that text is
written after `export let` as it is. A word of the source is written like a name, but it
may be a reserved one; a key in quotes may be anything. Where it is a name that can be
bound, the alias that follows it is read as it is meant: an assignment to the local name or
pattern, of a reference to the prop and of nothing else.

* `Text.isBindingIdentifier`: names that can be bound in a module;
* `Node.wellNamed`: trees in which names are written like names;
* `Component.props_named`: which names props have, and what their aliases are.
-/

namespace Unhook

namespace Text

/-- Words that are names, but none that a module can bind. -/
def strictWords : List String :=
  ["arguments", "await", "eval", "implements", "interface", "let", "package", "private", "protected",
    "public", "static", "yield"]

/-- Whether a module can bind no variable of a name although it is written like one. -/
def isRestricted (t : Text) : Bool := t.oneOf Grammar.reserved || t.oneOf strictWords

/-- Whether a module can bind a variable of a name. -/
def isBindingIdentifier (t : Text) : Bool := t.isIdentifierName && !t.isRestricted

theorem isBindingIdentifier_eq_true {t : Text} (h : t.isBindingIdentifier = true) :
    t.isIdentifierName = true ∧ t.oneOf Grammar.reserved = false ∧ t ≠ "await" := by
  rw [isBindingIdentifier, isRestricted, Bool.and_eq_true, Bool.not_eq_true', Bool.or_eq_false_iff] at h
  obtain ⟨hname, hreserved, hstrict⟩ := h
  refine ⟨hname, hreserved, ?_⟩
  rintro rfl
  exact absurd hstrict (by decide)

end Text

namespace Node

/-- Whether a node names something with a text that is not written like a name, or binds a
    word that is reserved. -/
def misnamed (n : Node) : Bool :=
  match n.kind with
  | .word x | .member _ x => !x.isIdentifierName
  | .binding x => !x.isIdentifierName || x.oneOf Grammar.reserved
  | _ => false

/-- Whether all names of a tree are written like names. -/
def wellNamed (n : Node) : Bool := !n.any misnamed

/-- A node takes the property `x` out of an object by a key in quotes. -/
def QuotesKey (x : Text) (n : Node) : Prop :=
  ∃ computed shorthand key halves, n.kind = .patternProperty computed shorthand ∧
    n.parts.head? = some key ∧ key.kind = .string x halves

theorem at?_append (n : Node) (p q : List Nat) : n.at? (p ++ q) = (n.at? p).bind (·.at? q) := by
  induction p generalizing n with
  | nil => rfl
  | cons i p ih =>
    rw [List.cons_append, at?_cons, at?_cons, Option.bind_assoc]
    exact congrArg _ (funext fun m => ih m)

theorem wellNamed_of_at? {n m : Node} {p : List Nat} (h : n.wellNamed = true)
    (hm : n.at? p = some m) : m.wellNamed = true := by
  rw [wellNamed, Bool.not_eq_true'] at h ⊢
  exact Bool.eq_false_iff.2 fun hany => Bool.false_ne_true (h.symm.trans (any_of_at? hm hany))

theorem misnamed_eq_false {n m : Node} {path : List Nat} (h : n.wellNamed = true)
    (hm : n.at? path = some m) : m.misnamed = false := by
  have hm := wellNamed_of_at? h hm
  obtain ⟨k, s, ps⟩ := m
  rw [wellNamed, any_mk, Bool.not_eq_true', Bool.or_eq_false_iff] at hm
  exact hm.1

/-- The key of a pattern is a word or in quotes. -/
theorem exists_of_mem_keyNames {p : Node} {x : Text} (h : x ∈ p.keyNames) :
    ∃ path m, p.at? path = some m ∧ (m.kind = .word x ∨ m.QuotesKey x) := by
  obtain ⟨k, s, ps⟩ := p
  cases k
  case objectPattern =>
    obtain ⟨q, hq, hkey⟩ := List.mem_filterMap.1 h
    obtain ⟨i, hi⟩ := List.mem_iff_getElem?.1 hq
    split at hkey
    · next computed shorthand t key rest =>
      obtain ⟨k, u, ks⟩ := key
      cases k
      case word y =>
        cases hkey
        exact ⟨[i, 0], .mk (.word x) u ks, by simp [hi], .inl rfl⟩
      case string y halves =>
        cases hkey
        exact ⟨[i], .mk (.patternProperty computed shorthand) t (.mk (.string x halves) u ks :: rest),
          by simp [hi], .inr ⟨computed, shorthand, _, halves, rfl, rfl, rfl⟩⟩
      all_goals cases hkey
    · cases hkey
  all_goals cases h

/-- What is taken from a name is named by a word, as a key or after a dot, or by a key in
    quotes. -/
theorem exists_of_takes_rename {old new object x : Text} {n : Node}
    (h : (n.rename old new).Takes object x) : ∃ path m, n.at? path = some m ∧
      (m.kind = .word x ∨ (∃ link, m.kind = .member link x) ∨ m.QuotesKey x) := by
  obtain ⟨link, o, hkind, -⟩ | ⟨definite, p, t, init, -, hparts, -, hx⟩ := h
  · refine ⟨[], n, rfl, .inr (.inl ⟨link, ?_⟩)⟩
    obtain ⟨k, s, ps⟩ := n
    cases k
    case member => exact hkind
    all_goals cases hkind
  · rw [rename_eq, parts_mk] at hparts
    obtain ⟨p', hp', rfl⟩ : ∃ p', n.parts[0]? = some p' ∧ p'.rename old new = p := by
      have hhead := congrArg (·[0]?) hparts
      rw [List.getElem?_map] at hhead
      exact Option.map_eq_some_iff.1 hhead
    rw [keyNames_rename] at hx
    obtain ⟨path, m, hm, hnamed⟩ := exists_of_mem_keyNames hx
    exact ⟨0 :: path, m, by rw [at?_cons, hp']; exact hm, hnamed.imp_right .inr⟩

/-- The pattern of a parameter is a part of it. -/
theorem at?_of_pattern {n p : Node} (h : n.pattern = p) (hp : p.kind ≠ .absent) :
    n.at? [1] = some p := by
  subst h
  unfold pattern at hp ⊢
  split
  · rfl
  · next hparam =>
    split at hp
    · exact (hparam _ _ _ _ _ _ rfl).elim
    · exact absurd rfl hp

end Node

namespace Component

variable {typescript : Bool} {c c' : Component} {x : Text}

theorem keyNames_of_takenKey {s : Span} {ps : List Node}
    (h : x ∈ ps.filterMap takenKey?) : x ∈ (Node.mk .objectPattern s ps).keyNames := by
  obtain ⟨p, hp, hx⟩ := List.mem_filterMap.1 h
  refine List.mem_filterMap.2 ⟨p, hp, ?_⟩
  unfold takenKey? at hx
  split at hx
  · exact hx
  · cases hx

/-- A node of the component as it is written names `x`. -/
def Named (c : Component) (x : Text) : Prop :=
  ∃ s ∈ c.params ++ c.body, ∃ path m, s.at? path = some m ∧
    (m.kind = .word x ∨ (∃ link, m.kind = .member link x) ∨ m.QuotesKey x)

/-- The props of a component are named in it. -/
theorem named_of_mem_foundProps (h : x ∈ c.foundProps) : c.Named x := by
  unfold foundProps at h
  split at h
  · next sp ps hps =>
    obtain ⟨q, hq, hpattern⟩ := Option.map_eq_some_iff.1 hps
    obtain ⟨path, m, hm, hnamed⟩ := Node.exists_of_mem_keyNames (keyNames_of_takenKey (s := sp) h)
    refine ⟨q, List.mem_append_left _ (List.mem_of_head? hq), [1] ++ path, m, ?_, hnamed.imp_right .inr⟩
    rw [Node.at?_append, Node.at?_of_pattern hpattern (by rintro ⟨⟩)]
    exact hm
  · next y sp ps hps =>
    obtain ⟨s, hs, hx⟩ := List.mem_flatMap.1 h
    obtain ⟨path, m, hm, htakes⟩ := Node.mem_fieldsRead.1 hx
    rw [Node.at?_rename] at hm
    obtain ⟨m₀, hm₀, rfl⟩ := Option.map_eq_some_iff.1 hm
    obtain ⟨path', m', hm', hnamed⟩ := Node.exists_of_takes_rename htakes
    refine ⟨s, List.mem_append_right _ hs, path ++ path', m', ?_, hnamed⟩
    rw [Node.at?_append, hm₀]
    exact hm'
  · cases h

/-- A name of a component whose names are written like names is one that can be bound, or
    a word that cannot, or it stands in quotes. -/
theorem Named.cases (h : c.Named x) (hnamed : ∀ s ∈ c.params ++ c.body, s.wellNamed = true) :
    x.isBindingIdentifier = true ∨ x.isRestricted = true ∨
      x.isIdentifierName = false ∧ ∃ s ∈ c.params ++ c.body, ∃ path m,
        s.at? path = some m ∧ m.QuotesKey x := by
  by_cases hname : x.isIdentifierName = true
  · cases hrestricted : x.isRestricted
    · exact .inl (by rw [Text.isBindingIdentifier, hname, hrestricted]; rfl)
    · exact .inr (.inl rfl)
  · refine .inr (.inr ⟨Bool.eq_false_iff.2 hname, ?_⟩)
    obtain ⟨s, hs, path, m, hm, hword | ⟨link, hmember⟩ | hquoted⟩ := h
    · have hmis := Node.misnamed_eq_false (hnamed s hs) hm
      rw [Node.misnamed, hword, Bool.not_eq_false'] at hmis
      exact absurd hmis hname
    · have hmis := Node.misnamed_eq_false (hnamed s hs) hm
      rw [Node.misnamed, hmember, Bool.not_eq_false'] at hmis
      exact absurd hmis hname
    · exact ⟨s, hs, path, m, hm, hquoted⟩

/-! ### Aliases -/

/-- The parts of the parameter's pattern that have aliases. -/
def aliasedParts (c : Component) : List Node :=
  match c.params.head?.map Node.pattern with
  | some (.mk .objectPattern _ ps) => ps.filter fun p => (aliasText? p).isSome
  | _ => []

/-- What a prop is taken to and its key, unless it is bound to a variable of that name. -/
def taken? : Node → Option (Node × Text)
  | .mk (.patternProperty _ _) _ [k, value] => do
    let key ← k.keyName?
    let target := (splitDefault value).1
    if target.binding? = some key then none else some (target, key)
  | _ => none

/-- Whether a statement is reactive and assigns a name to the target that a pattern is, by
    its text. -/
def assignsName (p : Node) (name : Text) : Node → Bool
  | .mk (.labeled label) _ [.mk .expressionStatement _
      [.mk (.assign none) _ [t, .mk (.identifier x) _ _]]] =>
    label = "$" && t.printPattern = p.asTarget.printPattern && x = name
  | _ => false

/-- Whether the assignment of a name to a pattern is read as it is written. -/
def readsAssignment (typescript : Bool) (p : Node) (name : Text) : Bool :=
  Template.passes (assignsName p name)
    (Template.read typescript ("$: (" ++ p.printPattern ++ " = " ++ name ++ ");"))

/-- The alias of a part of a pattern is read from its text. Where a prop has another name and
    a key that can be bound, it assigns the prop to the name; where a prop is taken apart, it
    assigns the prop to the pattern, if such an assignment is read as it is written. -/
inductive IsAlias (typescript : Bool) (p a : Node) : Prop
  | name {target : Node} {n key : Text} (hp : taken? p = some (target, key))
      (hn : target.binding? = some n)
      (hread : Template.read typescript ("$: " ++ n ++ " = " ++ key ++ ";") = .ok a)
      (ha : key.isBindingIdentifier = true → a = Grammar.aliasOf n key)
  | pattern {q : Node} {key : Text} (hp : taken? p = some (q, key)) (hn : q.binding? = none)
      (hread : Template.read typescript ("$: (" ++ q.printPattern ++ " = " ++ key ++ ");") = .ok a)
      (ha : readsAssignment typescript q key = true → assignsName q key a = true)
  | rest {n : Text} (hp : p.kind = .rest) (hn : (Node.namesList p.parts).head? = some n)
      (hread : Template.read typescript ("$: " ++ n ++ " = " ++ "$$restProps" ++ ";") = .ok a)

theorem exists_at?_splitDefault (value : Node) :
    ∃ path, value.at? path = some (splitDefault value).1 := by
  unfold splitDefault
  split
  · exact ⟨[0], rfl⟩
  · exact ⟨[], rfl⟩

/-- The alias of a prop that has another name. -/
theorem eq_aliasOf {target a : Node} {n key : Text} (hnamed : target.wellNamed = true)
    (hn : target.binding? = some n)
    (ha : Template.read typescript (Grammar.aliasText n key) = .ok a)
    (hkey : key.isBindingIdentifier = true) : a = Grammar.aliasOf n key := by
  have hmis := @Node.misnamed_eq_false _ _ [] hnamed rfl
  rw [Node.misnamed, Node.binding?_eq_some.1 hn, Bool.or_eq_false_iff, Bool.not_eq_false'] at hmis
  obtain ⟨hkeyName, hkeyReserved, hkeyAwait⟩ := Text.isBindingIdentifier_eq_true hkey
  by_cases hawait : n = "await"
  · rw [hawait] at ha
    exact absurd ha Template.read_alias_await
  · rw [Template.read_alias hmis.1 hmis.2 hawait hkeyName hkeyReserved hkeyAwait] at ha
    exact (Except.ok.inj ha).symm

theorem isAlias_of_read {p a : Node} {t : Text} (hnamed : p.wellNamed = true)
    (ht : aliasText? p = some t) (ha : Template.read typescript t = .ok a) :
    IsAlias typescript p a := by
  unfold aliasText? at ht
  split at ht
  · next computed shorthand s k value =>
    obtain ⟨key, hkey, ht⟩ := Option.bind_eq_some_iff.1 ht
    have htaken (hne : (splitDefault value).1.binding? ≠ some key) :
        taken? (.mk (.patternProperty computed shorthand) s [k, value]) =
          some ((splitDefault value).1, key) := by
      rw [taken?, hkey]
      exact if_neg hne
    unfold aliasTemplate? at ht
    split at ht
    · next n hn =>
      split at ht
      · cases ht
      · next hne =>
        cases ht
        obtain ⟨path, hpath⟩ := exists_at?_splitDefault value
        have hwell := Node.wellNamed_of_at? (p := 1 :: path) hnamed hpath
        exact .name (htaken (by rw [hn]; simpa using hne)) hn ha (eq_aliasOf hwell hn ha)
    · next hn =>
      cases ht
      refine .pattern (htaken (by rw [hn]; simp)) hn ha fun hreads => ?_
      rwa [readsAssignment, ha] at hreads
  · next s ps =>
    obtain ⟨n, hn, rfl⟩ := Option.map_eq_some_iff.1 ht
    exact .rest rfl hn ha
  · cases ht

theorem forall₂_isAlias {ps aliases : List Node} (hnamed : ∀ p ∈ ps, p.wellNamed = true)
    (h : (ps.filterMap aliasText?).map (Template.read typescript) = aliases.map .ok) :
    List.Forall₂ (IsAlias typescript) (ps.filter fun p => (aliasText? p).isSome) aliases := by
  induction ps generalizing aliases with
  | nil =>
    cases aliases with
    | nil => exact .nil
    | cons a aliases => cases h
  | cons p ps ih =>
    obtain ⟨hp, hps⟩ := List.forall_mem_cons.1 hnamed
    cases ht : aliasText? p with
    | none =>
      rw [List.filterMap_cons_none ht] at h
      rw [List.filter_cons_of_neg (by rw [ht]; exact Bool.false_ne_true)]
      exact ih hps h
    | some t =>
      rw [List.filterMap_cons_some ht] at h
      rw [List.filter_cons_of_pos (by rw [ht]; rfl)]
      cases aliases with
      | nil => cases h
      | cons a aliases =>
        obtain ⟨ha, h⟩ := List.cons.inj h
        exact .cons (isAlias_of_read hp ht ha) (ih hps h)

theorem Bound.isAlias {aliases : List Node} (h : Bound typescript aliases c c')
    (hnamed : ∀ s ∈ c.params, s.wellNamed = true) :
    List.Forall₂ (IsAlias typescript) c.aliasedParts aliases := by
  have htexts := h.texts
  unfold aliasTexts at htexts
  split at htexts
  · next sp ps hps =>
    rw [aliasedParts, hps]
    obtain ⟨q, hq, hpattern⟩ := Option.map_eq_some_iff.1 hps
    refine forall₂_isAlias (fun p hp => ?_) htexts
    obtain ⟨i, hi⟩ := List.mem_iff_getElem?.1 hp
    refine Node.wellNamed_of_at? (p := [1] ++ [i]) (hnamed q (List.mem_of_head? hq)) ?_
    rw [Node.at?_append, Node.at?_of_pattern hpattern (by rintro ⟨⟩)]
    show (Node.mk .objectPattern sp ps).at? [i] = some p
    rw [Node.at?_cons, Node.parts_mk, hi]
    rfl
  · next hpattern =>
    unfold aliasedParts
    split
    · next hps => exact (hpattern _ _ hps).elim
    · cases aliases with
      | nil => exact .nil
      | cons a aliases => cases htexts

/-- A component whose props have other names, all of them words with a meaning in some
    place, or are taken apart. -/
def renamingSource : Text :=
  "export default (\x7b a: let, 'b': type, c = 1, d: async, e: \x7b f = let \x7d \x7d) =>
    <p>\x7blet\x7d\x7btype\x7d\x7bc\x7d\x7basync\x7d\x7bf\x7d</p>;"

/-- A component with a key in quotes that is no name. -/
def hyphenSource : Text := "export default (\x7b 'aria-label': l \x7d) => <p>\x7bl\x7d</p>;"

end Component

end Unhook
