import Unhook.Proofs.Binding

/-!
# What is written is read as it is meant

The compiler writes some statements as text and reads them again: an assignment
in place of a declaration, the variable of a piece of state, an alias. What comes
out depends on the printer and the parser. Here it is said what they are relied
upon for: the text of a pattern, in front of `=`, is read as the target that the
pattern is (`readsTarget`), `let` and a name are read as the declaration of a
variable (`readsVariable`), and `$:` makes a label (`readsLabel`). Each can be
evaluated for the texts at hand.

A name of the form of a hole would be taken for the hole of a template; trees
without such names (`Node.hasHole`) are not touched when the hole is filled.

* `reactiveForm_cases`: what a statement made reactive is;
* `readWith_target`, `StateDeclaration.declaration_eq_ok`: what is read.
-/

namespace Unhook

namespace Node

variable {n : Node}

/-- Whether a tree has a name of the form of a hole. -/
def hasHole (n : Node) : Bool := n.any fun m =>
  match m.kind with
  | .identifier x | .binding x => Template.isHole x
  | _ => false

theorem hasHole_mk {k : Kind} {s : Span} {ps : List Node} : (mk k s ps).hasHole = false ↔
    (∀ x, k = .identifier x ∨ k = .binding x → Template.isHole x = false) ∧
      ∀ p ∈ ps, p.hasHole = false := by
  rw [hasHole, any_mk, anyList_eq, Bool.or_eq_false_iff, List.any_eq_false]
  refine and_congr ?_ (forall₂_congr fun _ _ => Bool.eq_false_iff.symm)
  cases k <;> simp

/-- Without holes nothing is filled. -/
theorem fill_of_not_hasHole (h : n.hasHole = false) (value : Node) :
    Template.fill value n = (n, false) := by
  induction n with
  | mk k s ps ih =>
    obtain ⟨hk, hps⟩ := hasHole_mk.1 h
    have hlist : Template.fillList value ps = (ps, false) := by
      clear hk h
      induction ps with
      | nil => rfl
      | cons p ps ihps =>
        rw [Template.fillList, ih p List.mem_cons_self (hps p List.mem_cons_self)]
        simp only
        rw [ihps (fun q hq => ih q (List.mem_cons_of_mem _ hq))
          fun q hq => hps q (List.mem_cons_of_mem _ hq)]
    unfold Template.fill
    split
    · next n s' ps' heq =>
      cases heq
      rw [if_neg (by rw [hk n (.inl rfl)]; exact Bool.false_ne_true)]
    · next heq =>
      cases heq
      rw [hlist]

theorem hasHole_rename {old new : Text} (hnew : Template.isHole new = false)
    (h : n.hasHole = false) : (n.rename old new).hasHole = false := by
  induction n with
  | mk k s ps ih =>
    obtain ⟨hk, hps⟩ := hasHole_mk.1 h
    have hlist (ns : List Node) : renameList old new ns = ns.map (rename old new) := by
      induction ns with
      | nil => rfl
      | cons m ns ihns => rw [renameList, ihns, List.map_cons]
    rw [rename, hlist, hasHole_mk]
    refine ⟨fun x hx => ?_, List.forall_mem_map.2 fun p hp => ih p hp (hps p hp)⟩
    unfold Kind.rename at hx
    split at hx <;> simp_all
    split at hx <;> simp_all

theorem mem_of_sets {setters : List (Text × Text)} {v : Text}
    (h : n.sets? setters = some v) : ∃ x, setters.lookup x = some v ∧ (x, v) ∈ setters := by
  unfold sets? at h
  split at h
  · obtain ⟨x, -, hx⟩ := Option.bind_eq_some_iff.1 h
    obtain ⟨l, r, hl, -⟩ := List.lookup_eq_some_iff.1 hx
    exact ⟨x, hx, by simp [hl]⟩
  · cases h

/-- What a call of a setter assigns: nothing, the first argument, or what the function
    that is the first argument makes of the value. -/
theorem setterCall_cases (v : Text) (arguments : List Node) :
    ∃ value s, setterCall v arguments = assigning v value s ∧
      (value = reference "undefined" s ∨ ∃ a ∈ arguments,
        value = a ∨ a.isFunction = true ∧ value = calling a [reference v s] s) := by
  unfold setterCall
  split
  · exact ⟨_, _, rfl, .inl rfl⟩
  · next a ha =>
    have hmem : a ∈ arguments := by
      cases arguments with
      | nil => cases ha
      | cons b bs =>
        rw [first?_cons] at ha
        split at ha
        · cases ha
        · cases ha
          exact List.mem_cons_self
    split
    · next hfunction => exact ⟨_, _, rfl, .inr ⟨a, hmem, .inr ⟨hfunction, rfl⟩⟩⟩
    · exact ⟨_, _, rfl, .inr ⟨a, hmem, .inl rfl⟩⟩

theorem hasHole_setterCall {v : Text} (hv : Template.isHole v = false) {arguments : List Node}
    (h : ∀ a ∈ arguments, a.hasHole = false) : (setterCall v arguments).hasHole = false := by
  obtain ⟨value, s, hvalue, hcases⟩ := setterCall_cases v arguments
  have hreference {x : Text} (hx : Template.isHole x = false) : (reference x s).hasHole = false :=
    hasHole_mk.2 ⟨fun y hy => by rcases hy with hy | hy <;> cases hy; exact hx, nofun⟩
  have hhole : value.hasHole = false := by
    rcases hcases with rfl | ⟨a, ha, rfl | ⟨-, rfl⟩⟩
    · exact hreference (by decide)
    · exact h _ ha
    · refine hasHole_mk.2 ⟨nofun, ?_⟩
      simp [h a ha, hreference hv, absent, hasHole_mk]
  rw [hvalue]
  simp [assigning, hasHole_mk, hhole]

theorem hasHole_assigned {setters : List (Text × Text)}
    (hsetters : ∀ p ∈ setters, Template.isHole p.2 = false) (h : n.hasHole = false) :
    (n.assigned setters).hasHole = false := by
  induction n with
  | mk k s ps ih =>
    obtain ⟨hk, hps⟩ := hasHole_mk.1 h
    have hparts : ∀ p ∈ ps.map (assigned setters), p.hasHole = false :=
      List.forall_mem_map.2 fun p hp => ih p hp (hps p hp)
    cases hv : (mk k s ps).sets? setters with
    | none =>
      rw [assigned_of_not_sets hv, hasHole_mk]
      exact ⟨hk, hparts⟩
    | some v =>
      obtain ⟨x, -, hx⟩ := mem_of_sets hv
      rw [assigned_of_sets hv]
      refine hasHole_setterCall (hsetters _ hx) fun a ha => hparts a ?_
      obtain ⟨b, hb, rfl⟩ := List.mem_map.1 ha
      exact List.mem_map_of_mem (List.mem_of_mem_drop hb)

/-- The pattern and the value of a declaration of one variable that has a value. -/
def declared? : Node → Option (Node × Node)
  | mk (.declaration _ _) _ [mk (.declarator _) _ [p, _, init]] =>
    if init.isAbsent then none else some (p, init)
  | _ => none

/-- What is found in the pattern or the value of a declaration is found in the
    declaration. -/
theorem any_of_declared? {f : Node → Bool} {n p init : Node} (h : n.declared? = some (p, init)) :
    (p.any f = true → n.any f = true) ∧ (init.any f = true → n.any f = true) := by
  unfold declared? at h
  split at h
  · split at h
    · cases h
    · cases h
      simp only [any_mk, anyList_eq, List.any_cons, Bool.or_eq_true]
      exact ⟨fun hp => .inr (.inl (.inr (.inl hp))),
        fun hinit => .inr (.inl (.inr (.inr (.inr (.inl hinit)))))⟩
  · cases h

theorem hasHole_declared? {n p init : Node} (h : n.hasHole = false)
    (hp : n.declared? = some (p, init)) : p.hasHole = false :=
  Bool.eq_false_iff.2 fun hhole => Bool.eq_false_iff.1 h ((any_of_declared? hp).1 hhole)

/-- A property of a target, in short if its key is the name that is assigned to. -/
def targetProperty (computed : Bool) (s : Span) (key : Node) : (target : Node) → Node
  | mk (.target n) i ps =>
    if key.kind = .word n then mk .targetShorthand s [mk (.target n) i ps, absent]
    else mk (.targetProperty computed) s [key, mk (.target n) i ps]
  | mk .defaultTarget i [mk (.target n) j ps, d] =>
    if key.kind = .word n then mk .targetShorthand s [mk (.target n) j ps, d]
    else mk (.targetProperty computed) s [key, mk .defaultTarget i [mk (.target n) j ps, d]]
  | t => mk (.targetProperty computed) s [key, t]

mutual

/-- The target that a pattern is when it is assigned to. -/
def asTarget : Node → Node
  | mk (.binding n) s _ => mk (.target n) s []
  | mk .arrayPattern s ps => mk .arrayTarget s (asTargets ps)
  | mk .objectPattern s ps => mk .objectTarget s (asTargets ps)
  | mk (.patternProperty computed _) s [key, p] => targetProperty computed s key p.asTarget
  | mk .defaultPattern s [p, d] => mk .defaultTarget s [p.asTarget, d]
  | mk .rest s ps => mk .rest s (asTargets ps)
  | n => n

/-- The targets that patterns are when they are assigned to. -/
def asTargets : List Node → List Node
  | [] => []
  | n :: ns => n.asTarget :: asTargets ns

end

end Node

variable {typescript : Bool} {sd : StateDeclaration} {s : Node}

open Node

/-- Whether what a template is read as passes a test, if it can be read. -/
def Template.passes (test : Node → Bool) : Except Problem Node → Bool
  | .ok s => test s
  | .error _ => true

/-- Whether a statement assigns the hole to the target that a pattern is, by its text,
    and with no hole in it unless the pattern has one. -/
def assignsHole (p : Node) : Node → Bool
  | .mk .expressionStatement _ [.mk (.assign none) _ [t, .mk (.identifier x) _ _]] =>
    x = Template.hole && t.printPattern = p.asTarget.printPattern && (!t.hasHole || p.hasHole)
  | _ => false

/-- Whether a statement declares a variable of some name, with a value that passes a
    test. -/
def declaresVariable (name : Text) (test : Node → Bool) : Node → Bool
  | .mk (.declaration .let false) _
      [.mk (.declarator false) _ [.mk (.binding x) _ [], .mk .absent _ [], value]] =>
    x = name && test value
  | _ => false

/-- Whether the text of a pattern is read, in front of `=`, as the target that the
    pattern is. -/
def readsTarget (typescript : Bool) (p : Node) : Bool :=
  Template.passes (assignsHole p) (Template.read typescript (assignmentTemplate p))

/-- Whether a name is read after `let` as the declaration of a variable, with a value
    and without. -/
def readsVariable (typescript : Bool) (name : Text) : Bool :=
  Template.passes (declaresVariable name (·.identifier? = some Template.hole))
      (Template.read typescript ("let " ++ name ++ " = " ++ Template.hole ++ ";")) &&
    Template.passes (declaresVariable name isAbsent)
      (Template.read typescript ("let " ++ name ++ ";"))

/-- Whether a text is read as a statement under the reactive label. -/
def readsLabel (typescript : Bool) (t : Text) : Bool :=
  Template.passes (·.kind = .labeled reactiveLabel) (Template.read typescript t)

theorem Template.readWith_eq_ok {text : Text} {value t : Node}
    (h : readWith typescript text value = .ok t) :
    ∃ s, read typescript text = .ok s ∧ t = (fill value s).1 := by
  unfold readWith at h
  cases hread : read typescript text with
  | error e =>
    rw [hread] at h
    cases h
  | ok s =>
    rw [hread] at h
    cases h
    exact ⟨s, rfl, rfl⟩

/-- A statement made reactive is that statement under the label, or the assignment
    that its declaration is read as. -/
theorem reactiveForm_cases {s r : Node} {names : List Text}
    (h : reactiveForm typescript s = .ok (some (r, names))) :
    s.isWrappable = true ∧ r = reactive s ∧ names = s.assignedName?.toList ∨
    ∃ p init a, s.declared? = some (p, init) ∧
      Template.read typescript (assignmentTemplate p) = .ok a ∧
      r = reactive (Template.fill init a).1 ∧ names = p.names := by
  unfold reactiveForm at h
  split at h
  · next p note init =>
    split at h
    · cases h
    · next hinit =>
      obtain ⟨a, ha, h⟩ := of_bind_eq_ok h
      cases h
      obtain ⟨b, hread, rfl⟩ := Template.readWith_eq_ok ha
      exact .inr ⟨p, init, b, by rw [declared?, if_neg hinit], hread, rfl, rfl⟩
  · split at h
    · next hw =>
      cases h
      exact .inl ⟨hw, rfl, rfl⟩
    · cases h

/-- A statement that assigns a value to a target. -/
def IsAssignment (target value s : Node) : Prop :=
  ∃ sp sp', s = .mk .expressionStatement sp [.mk (.assign none) sp' [target, value]]

/-- A statement that declares a variable of some name, with a value or without. -/
def IsVariable (name : Text) (value : Option Node) (s : Node) : Prop :=
  ∃ sp sp' sp'' sp₃ v, s = .mk (.declaration .let false) sp
      [.mk (.declarator false) sp' [.mk (.binding name) sp'' [], .mk .absent sp₃ [], v]] ∧
    match value with
      | some e => v = e
      | none => v.isAbsent = true

/-- The assignment that a declaration is read as gives its value to the target that
    its pattern is. -/
theorem isAssignment_fill {p a : Node} (init : Node)
    (hp : readsTarget typescript p = true) (hhole : p.hasHole = false)
    (ha : Template.read typescript (assignmentTemplate p) = .ok a) :
    ∃ t, t.printPattern = p.asTarget.printPattern ∧ (∃ e, IsAssignment t e a) ∧
      IsAssignment t init (Template.fill init a).1 := by
  rw [readsTarget, ha, Template.passes] at hp
  unfold assignsHole at hp
  split at hp
  · next sp sp' t x sp'' ps =>
    simp only [hhole, Bool.and_eq_true, Bool.or_false, decide_eq_true_eq, Bool.not_eq_true'] at hp
    obtain ⟨⟨rfl, htext⟩, ht⟩ := hp
    refine ⟨t, htext, ⟨_, sp, sp', rfl⟩, sp, sp', ?_⟩
    have hfilled : Template.isHole Template.hole = true := by decide
    simp only [Template.fill, Template.fillList, fill_of_not_hasHole ht, hfilled, if_true]
  · cases hp

/-- Whether the target of an assignment has what a test looks for only if the pattern
    has it. -/
def targetHas (q : Node → Bool) (p : Node) : Node → Bool
  | .mk .expressionStatement _ [.mk (.assign none) _ [t, _]] => p.any q || !t.any q
  | _ => true

/-- Whether reading a pattern as a target brings up nothing that a test looks for. -/
def keepsOut (q : Node → Bool) (typescript : Bool) (p : Node) : Bool :=
  Template.passes (targetHas q p) (Template.read typescript (assignmentTemplate p))

/-- A test that neither labels nor assignments pass, nor statements that are
    expressions. -/
structure ReactiveTest (q : Node → Bool) : Prop where
  labeled : ∀ s ps, q (.mk (.labeled reactiveLabel) s ps) = false
  statement : ∀ s ps, q (.mk .expressionStatement s ps) = false
  assign : ∀ s ps, q (.mk (.assign none) s ps) = false

/-- Making a statement reactive brings up nothing that the test looks for. -/
theorem ReactiveTest.any_reactiveForm {q : Node → Bool} (hq : ReactiveTest q)
    {s r : Node} {names : List Text} (hhole : s.hasHole = false)
    (htargets : ∀ p init, s.declared? = some (p, init) →
      readsTarget typescript p = true ∧ keepsOut q typescript p = true)
    (h : reactiveForm typescript s = .ok (some (r, names))) (hs : s.any q = false) :
    r.any q = false := by
  have hlabel (n : Node) : (reactive n).any q = n.any q := by
    rw [reactive, any_mk, hq.labeled, anyList_eq]
    simp
  rcases reactiveForm_cases h with ⟨-, rfl, -⟩ | ⟨p, init, a, hp, ha, rfl, -⟩
  · rw [hlabel, hs]
  · obtain ⟨htarget, hkeeps⟩ := htargets p init hp
    obtain ⟨t, -, ⟨e, sp, sp', rfl⟩, sp₂, sp₃, hassign⟩ :=
      isAssignment_fill init htarget (hasHole_declared? hhole hp) ha
    rw [keepsOut, ha, Template.passes, targetHas, Bool.or_eq_true, Bool.not_eq_true'] at hkeeps
    have hpattern : p.any q = false :=
      Bool.eq_false_iff.2 fun h => Bool.eq_false_iff.1 hs ((any_of_declared? hp).1 h)
    have hvalue : init.any q = false :=
      Bool.eq_false_iff.2 fun h => Bool.eq_false_iff.1 hs ((any_of_declared? hp).2 h)
    have ht : t.any q = false := by
      rcases hkeeps with hkeeps | hkeeps
      · rw [hpattern] at hkeeps
        cases hkeeps
      · exact hkeeps
    rw [hlabel, hassign, any_mk, hq.statement, anyList_eq]
    simp [any_mk, anyList_eq, hq.assign, ht, hvalue]

/-- A declaration of a variable, with its parts. -/
theorem of_declaresVariable {name : Text} {test : Node → Bool}
    (h : declaresVariable name test s = true) :
    ∃ sp sp' sp'' sp₃ v, s = .mk (.declaration .let false) sp
        [.mk (.declarator false) sp' [.mk (.binding name) sp'' [], .mk .absent sp₃ [], v]] ∧
      test v = true := by
  unfold declaresVariable at h
  split at h
  · next sp sp' x sp'' sp₃ v =>
    obtain ⟨hx, hv⟩ := Bool.and_eq_true_iff.1 h
    obtain rfl := of_decide_eq_true hx
    exact ⟨sp, sp', sp'', sp₃, v, rfl, hv⟩
  · cases h

/-- The variable of a piece of state has its name and its initial value. -/
theorem StateDeclaration.isVariable_declaration
    {t : Node} (hname : readsVariable typescript sd.value = true)
    (ht : sd.declaration typescript = .ok t) : IsVariable sd.value sd.initializer t := by
  obtain ⟨hvalue, hnone⟩ := Bool.and_eq_true_iff.1 hname
  unfold declaration at ht
  cases hinit : sd.initializer with
  | some init =>
    rw [hinit] at ht
    obtain ⟨s, hs, rfl⟩ := Template.readWith_eq_ok ht
    rw [hs, Template.passes] at hvalue
    obtain ⟨sp, sp', sp'', sp₃, v, rfl, hv⟩ := of_declaresVariable hvalue
    have hfill : Template.fill init v = (init, true) := by
      cases v with
      | mk k s ps =>
        have hk := of_decide_eq_true hv
        unfold identifier? at hk
        split at hk
        · next x s ps heq =>
          cases heq
          cases hk
          have hfilled : Template.isHole Template.hole = true := by decide
          rw [Template.fill, if_pos hfilled]
        · cases hk
    refine ⟨sp, sp', sp'', sp₃, init, ?_, rfl⟩
    simp only [Template.fill, Template.fillList, hfill]
  | none =>
    rw [hinit] at ht
    dsimp only at ht
    rw [ht, Template.passes] at hnone
    obtain ⟨sp, sp', sp'', sp₃, v, rfl, hv⟩ := of_declaresVariable hnone
    exact ⟨sp, sp', sp'', sp₃, v, rfl, hv⟩

theorem Node.hook?_of_expressionHook? {n : Node} {h : Hook} (hn : n.expressionHook? = some h) :
    n.hook? = some h := by
  unfold expressionHook? at hn
  split at hn
  · exact hn
  · cases hn

/-- A statement that declares state is a declaration of a pair of names by itself. -/
theorem StateDeclaration.ofStatement?_eq_some (h : ofStatement? s = .ok (some sd)) :
    ∃ k d sp dk sp' sp₂ sp₃ qs sp₄ qs' note init,
      s = .mk (.declaration k d) sp [.mk dk sp' [.mk .arrayPattern sp₂
        [.mk (.binding sd.value) sp₃ qs, .mk (.binding sd.setter) sp₄ qs'], note, init]] ∧
      init.hook? = some .state ∧ sd.initializer = init.firstArgument? := by
  unfold ofStatement? at h
  split at h
  · next k d sp ds =>
    split at h
    · cases h
    · next e he =>
      split at h
      · cases h
      · next hlength =>
        have hds : ds = [e] := by
          match ds, hlength, he with
          | [x], _, he => rw [List.mem_singleton.1 (List.mem_of_find?_eq_some he)]
          | [], hl, _ => exact absurd nofun hl
          | _ :: _ :: _, hl, _ => simp at hl
        subst hds
        split at h
        · next dk sp' sp₂ value sp₃ qs setter sp₄ qs' note init =>
          cases h
          have hstate := List.find?_some he
          refine ⟨k, d, sp, dk, sp', sp₂, sp₃, qs, sp₄, qs', note, init, rfl, ?_, rfl⟩
          unfold Node.declaresState at hstate
          split at hstate
          · next heq =>
            cases heq
            exact Node.hook?_of_expressionHook? (of_decide_eq_true hstate)
          · cases hstate
        · cases h
  · cases h

theorem StateDeclaration.ofStatement?_kind
    (h : ofStatement? s = .ok (some sd)) : ∃ k d, s.kind = .declaration k d := by
  obtain ⟨k, d, _, _, _, _, _, _, _, _, _, _, rfl, -⟩ := ofStatement?_eq_some h
  exact ⟨k, d, rfl⟩

/-- The values that setters set are not named like holes, if no declaration of state has
    a hole. -/
theorem Component.extractState_isHole {c c' : Component} (hc : c.setters = [])
    (h : c.extractState typescript = .ok c')
    (hs : ∀ s ∈ c.body, ∀ sd, StateDeclaration.ofStatement? s = .ok (some sd) → s.hasHole = false) :
    ∀ p ∈ c'.setters, Template.isHole p.2 = false := by
  intro p hp
  obtain ⟨d, e, n, hd, -, he, hc'⟩ := extractState_eq_ok h
  rw [(propagate_sameState hc').setters, (unsetCalls_sameState he).2.2] at hp
  rcases extractCells_setters List.nodup_range hd hp with hp | ⟨i, -, s, hi, sd, hsd, rfl⟩
  · rw [hc] at hp
    cases hp
  · have hhole := hs s (List.mem_of_getElem? hi) sd hsd
    obtain ⟨k, d', sp, dk, sp', sp₂, sp₃, qs, sp₄, qs', note, init, rfl, -⟩ :=
      StateDeclaration.ofStatement?_eq_some hsd
    -- The name of the value stands in the pattern of the statement.
    have hpattern := (hasHole_mk.1 ((hasHole_mk.1 hhole).2 _ List.mem_cons_self)).2 _
      List.mem_cons_self
    exact (hasHole_mk.1 ((hasHole_mk.1 hpattern).2 _ List.mem_cons_self)).1 _ (.inr rfl)

end Unhook
