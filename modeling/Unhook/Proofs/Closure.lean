import Unhook.Proofs.Legible

/-!
# Setters that are left

Calls of setters become assignments. A setter that is mentioned in any other way
is still needed, and it is written out as a function in the end. A place in a
tree is given by its path; the places that do not count are the callee and the
type arguments of a call that becomes an assignment, for these are gone
(`Node.avoidsCallees`).

* `Node.mem_escaped_unset`: which setters the walk over a tree finds;
* `Node.callsSetter_assigned`, `Node.uses_of_mentions_assigned`: what is left of
  setters in a tree;
* `Component.setters_closed`: the same for the whole of a component, and the
  functions that are written out.
-/

namespace Unhook

namespace Node

variable {setters : List (Text × Text)} {n : Node}

/-- Whether a tree refers to a name anywhere. -/
def mentions (x : Text) (n : Node) : Bool := n.any fun m => m.kind.reference? = some x

/-- Whether a tree has a call of a setter. -/
def callsSetter (setters : List (Text × Text)) (n : Node) : Bool :=
  n.any fun m => (m.sets? setters).isSome

theorem mentions_mk (x : Text) (k : Kind) (s : Span) (ps : List Node) :
    (mk k s ps).mentions x = (k.reference? = some x || ps.any (mentions x)) := by
  rw [mentions, any_mk, anyList_eq]
  rfl

theorem callsSetter_mk (k : Kind) (s : Span) (ps : List Node) :
    (mk k s ps).callsSetter setters =
      (((mk k s ps).sets? setters).isSome || ps.any (callsSetter setters)) := by
  rw [callsSetter, any_mk, anyList_eq]
  rfl

/-- Whether a path passes by the callees and the type arguments of calls of
    setters. -/
def avoidsCallees (setters : List (Text × Text)) (n : Node) : (path : List Nat) → Bool
  | [] => true
  | i :: p => ((n.sets? setters).isNone || 2 ≤ i) &&
      n.parts[i]?.all fun m => m.avoidsCallees setters p

/-- A name is referred to in a tree other than by the callee, or within the type
    arguments, of a call of a setter. -/
def Uses (setters : List (Text × Text)) (x : Text) (n : Node) : Prop :=
  ∃ p m, n.at? p = some m ∧ m.kind.reference? = some x ∧ n.avoidsCallees setters p = true

/-- The parts of a node in which references count. -/
def counted (setters : List (Text × Text)) (n : Node) : List Node :=
  if (n.sets? setters).isSome then n.arguments else n.parts

theorem mem_counted {n m : Node} : m ∈ n.counted setters ↔
    ∃ i, n.parts[i]? = some m ∧ ((n.sets? setters).isNone || 2 ≤ i) = true := by
  unfold counted
  cases h : n.sets? setters with
  | none =>
    simp only [Option.isSome_none, Bool.false_eq_true, if_false, Option.isNone_none, Bool.true_or,
      and_true]
    exact List.mem_iff_getElem?
  | some v =>
    simp only [Option.isSome_some, if_true, arguments, List.mem_iff_getElem?, List.getElem?_drop,
      Option.isNone_some, Bool.false_or, decide_eq_true_eq]
    constructor
    · rintro ⟨i, hi⟩
      exact ⟨2 + i, hi, by omega⟩
    · rintro ⟨i, hi, hle⟩
      exact ⟨i - 2, by rwa [show 2 + (i - 2) = i by omega]⟩

theorem uses_iff {x : Text} : n.Uses setters x ↔
    n.kind.reference? = some x ∨ ∃ m ∈ n.counted setters, m.Uses setters x := by
  constructor
  · rintro ⟨p, m, hm, hx, hp⟩
    cases p with
    | nil =>
      cases hm
      exact .inl hx
    | cons i p =>
      obtain ⟨l, hl, hm⟩ := Option.bind_eq_some_iff.1 hm
      rw [avoidsCallees, hl, Bool.and_eq_true] at hp
      exact .inr ⟨l, mem_counted.2 ⟨i, hl, hp.1⟩, p, m, hm, hx, hp.2⟩
  · rintro (hx | ⟨m, hm, p, l, hl, hx, hp⟩)
    · exact ⟨[], n, rfl, hx, rfl⟩
    · obtain ⟨i, hi, hpass⟩ := mem_counted.1 hm
      refine ⟨i :: p, l, ?_, hx, ?_⟩
      · rw [at?_cons, hi]
        exact hl
      · rw [avoidsCallees, hi, hpass]
        exact hp

/-! ### What the walk finds -/

theorem mem_escaped_unsetList {ns : List Node} {y : Text}
    (h : ∀ n ∈ ns, ∀ nested u, y ∈ (n.unset setters nested u).2.escaped ↔
      y ∈ u.escaped ∨ (setters.lookup y).isSome = true ∧ n.Uses setters y)
    (nested : Bool) (u : SetterUse) :
    y ∈ (unsetList setters nested ns u).2.escaped ↔
      y ∈ u.escaped ∨ (setters.lookup y).isSome = true ∧ ∃ n ∈ ns, n.Uses setters y := by
  induction ns generalizing u with
  | nil => simp [unsetList]
  | cons n ns ih =>
    have hns := ih (fun m hm => h m (List.mem_cons_of_mem _ hm)) (n.unset setters nested u).2
    have hn := h n List.mem_cons_self nested u
    rw [show unsetList setters nested (n :: ns) u = ((n.unset setters nested u).1 ::
      (unsetList setters nested ns (n.unset setters nested u).2).1,
      (unsetList setters nested ns (n.unset setters nested u).2).2) from rfl, hns, hn]
    simp only [List.mem_cons, exists_eq_or_imp, and_or_left, or_assoc]

theorem mem_escaped_insert {x y : Text} {u : SetterUse} :
    y ∈ (if (setters.lookup x).isSome = true then { u with escaped := insertNew x u.escaped }
      else u).escaped ↔ y ∈ u.escaped ∨ (setters.lookup y).isSome = true ∧ x = y := by
  split
  · next hx =>
    show y ∈ insertNew x u.escaped ↔ _
    rw [mem_insertNew, or_comm]
    refine or_congr_right ⟨fun h => ?_, fun h => h.2.symm⟩
    subst h
    exact ⟨hx, rfl⟩
  · next hx =>
    refine (or_iff_left fun h => hx ?_).symm
    rw [h.2]
    exact h.1

/-- The walk over a tree finds the setters that are used in it. -/
theorem mem_escaped_unset (n : Node) (nested : Bool) (u : SetterUse) (y : Text) :
    y ∈ (n.unset setters nested u).2.escaped ↔
      y ∈ u.escaped ∨ (setters.lookup y).isSome = true ∧ n.Uses setters y := by
  induction n generalizing nested u with
  | mk k s ps ih =>
    have hparts := mem_escaped_unsetList ih
    rw [uses_iff, kind_mk]
    unfold unset
    dsimp only
    split
    · next o pure callee types arguments =>
      have hreference : (Kind.call ⟨o, false⟩ pure).reference? ≠ some y :=
        fun h => by cases h
      have harguments := mem_escaped_unsetList fun n (hn : n ∈ arguments) => ih n (by simp [hn])
      split
      · next v hv =>
        have hcounted : (mk (.call ⟨o, false⟩ pure) s (callee :: types :: arguments)).counted
            setters = arguments := by
          rw [counted, sets?, hv]
          rfl
        rw [hcounted]
        simp only [hreference, false_or]
        exact harguments nested u
      · next hv =>
        have hcounted : (mk (.call ⟨o, false⟩ pure) s (callee :: types :: arguments)).counted
            setters = callee :: types :: arguments := by
          rw [counted, sets?, hv]
          rfl
        rw [hcounted]
        simp only [hreference, false_or]
        exact hparts nested u
    · next hcall =>
      have hcounted : (mk k s ps).counted setters = ps := by
        have hsets : (mk k s ps).sets? setters = none := by
          unfold sets?
          split
          · next heq =>
            cases heq
            exact (hcall _ _ _ _ _ rfl rfl).elim
          · rfl
        rw [counted, hsets]
        rfl
      rw [hcounted]
      cases hx : k.reference? with
      | none =>
        simp only [reduceCtorEq, false_or]
        exact hparts _ u
      | some x =>
        refine (hparts _ _).trans ?_
        rw [mem_escaped_insert]
        simp only [Option.some.injEq, and_or_left, or_assoc]

/-! ### What is left -/

theorem sets?_of_kind (h : ∀ l p, n.kind ≠ .call l p) : n.sets? setters = none := by
  unfold sets?
  split
  · exact absurd rfl (h _ _)
  · rfl

theorem identifier?_eq (n : Node) :
    n.identifier? = match n.kind with | .identifier x => some x | _ => none := by
  cases n with
  | mk k s ps => cases k <;> rfl

theorem identifier?_assigned (n : Node) : (n.assigned setters).identifier? = n.identifier? := by
  rw [identifier?_eq, identifier?_eq]
  rcases kind_assigned setters n with h | ⟨⟨o, pure, h⟩, h'⟩
  · rw [h]
  · rw [h, h']

/-- A call that is none of a setter is none of a setter afterwards. -/
theorem sets?_map_assigned {k : Kind} {s : Span} {ps : List Node}
    (h : (mk k s ps).sets? setters = none) :
    (mk k s (ps.map (assigned setters))).sets? setters = none := by
  unfold sets?
  split
  · next o pure sp callee types arguments heq =>
    injection heq with hk hs hps
    obtain ⟨c, ps, rfl, hc, hps⟩ := List.map_eq_cons_iff.1 hps
    obtain ⟨t, as, rfl, -, -⟩ := List.map_eq_cons_iff.1 hps
    subst hk
    rw [← hc, identifier?_assigned]
    exact h
  · rfl

theorem callsSetter_setterCall {v : Text} {arguments : List Node}
    (h : ∀ a ∈ arguments, a.callsSetter setters = false) :
    (setterCall v arguments).callsSetter setters = false := by
  obtain ⟨value, s, hvalue, hcases⟩ := setterCall_cases v arguments
  have hreference (x : Text) : (reference x s).callsSetter setters = false := by
    rw [reference, callsSetter_mk, sets?_of_kind (by simp)]
    rfl
  have hcalls : value.callsSetter setters = false := by
    rcases hcases with rfl | ⟨a, ha, rfl | ⟨hfunction, rfl⟩⟩
    · exact hreference _
    · exact h _ ha
    · -- A function is no setter, so calling it is no call of one.
      have hidentifier : a.identifier? = none := by
        rw [identifier?_eq]
        unfold isFunction at hfunction
        split
        · next heq =>
          rw [heq] at hfunction
          cases hfunction
        · rfl
      have hsets : (calling a [reference v s] s).sets? setters = none := by
        show (a.identifier?.bind fun n => setters.lookup n) = none
        rw [hidentifier]
        rfl
      rw [calling] at hsets ⊢
      rw [callsSetter_mk, hsets, List.any_cons, h a ha, List.any_cons, absent, callsSetter_mk,
        sets?_of_kind (by simp), List.any_cons, hreference]
      rfl
  rw [hvalue, assigning, callsSetter_mk, sets?_of_kind (by simp), List.any_cons, callsSetter_mk,
    sets?_of_kind (by simp), List.any_cons, hcalls]
  rfl

/-- No call of a setter is left. -/
theorem callsSetter_assigned (n : Node) : (n.assigned setters).callsSetter setters = false := by
  induction n with
  | mk k s ps ih =>
    cases hv : (mk k s ps).sets? setters with
    | none =>
      rw [assigned_of_not_sets hv, kind_mk, span_mk, parts_mk, callsSetter_mk,
        sets?_map_assigned hv]
      simpa using ih
    | some v =>
      rw [assigned_of_sets hv]
      exact callsSetter_setterCall
        (List.forall_mem_map.2 fun a ha => ih a (List.mem_of_mem_drop ha))

theorem of_mentions_setterCall {x v : Text} {arguments : List Node}
    (h : (setterCall v arguments).mentions x = true) :
    x = v ∨ x = "undefined" ∨ ∃ a ∈ arguments, a.mentions x = true := by
  obtain ⟨value, s, hvalue, hcases⟩ := setterCall_cases v arguments
  have hreference (y : Text) : (reference y s).mentions x = decide (y = x) := by
    simp [reference, mentions_mk, Kind.reference?]
  rw [hvalue] at h
  obtain rfl | h : v = x ∨ value.mentions x = true := by
    simpa [assigning, mentions_mk, Kind.reference?] using h
  · exact .inl rfl
  · rcases hcases with rfl | ⟨a, ha, rfl | ⟨-, rfl⟩⟩
    · rw [hreference, decide_eq_true_eq] at h
      exact .inr (.inl h.symm)
    · exact .inr (.inr ⟨_, ha, h⟩)
    · obtain h | rfl : a.mentions x = true ∨ v = x := by
        simpa [calling, absent, mentions_mk, Kind.reference?, hreference] using h
      · exact .inr (.inr ⟨a, ha, h⟩)
      · exact .inl rfl

/-- The names that are left were used before, or they are those of a value, or stand
    for an argument that is missing. -/
theorem uses_of_mentions_assigned {x : Text} (h : (n.assigned setters).mentions x = true) :
    n.Uses setters x ∨ (∃ p ∈ setters, x = p.2) ∨ x = "undefined" := by
  induction n with
  | mk k s ps ih =>
    have hcounted (p : Node) (hp : p ∈ (mk k s ps).counted setters) (hmem : p ∈ ps)
        (h : (p.assigned setters).mentions x = true) :
        (mk k s ps).Uses setters x ∨ (∃ p ∈ setters, x = p.2) ∨ x = "undefined" :=
      (ih p hmem h).imp_left fun h => uses_iff.2 (.inr ⟨p, hp, h⟩)
    cases hv : (mk k s ps).sets? setters with
    | none =>
      rw [assigned_of_not_sets hv, kind_mk, span_mk, parts_mk, mentions_mk, Bool.or_eq_true,
        decide_eq_true_eq, List.any_map, List.any_eq_true] at h
      rcases h with h | ⟨p, hp, h⟩
      · exact .inl (uses_iff.2 (.inl h))
      · exact hcounted p (by rwa [counted, hv]) hp h
    | some v =>
      obtain ⟨y, -, hy⟩ := mem_of_sets hv
      rw [assigned_of_sets hv] at h
      rcases of_mentions_setterCall h with rfl | hx | ⟨a, ha, h⟩
      · exact .inr (.inl ⟨_, hy, rfl⟩)
      · exact .inr (.inr hx)
      · obtain ⟨p, hp, rfl⟩ := List.mem_map.1 ha
        exact hcounted p (by rwa [counted, hv]) (List.mem_of_mem_drop hp) h

end Node

namespace Component

variable {typescript : Bool} {c c' d : Component}

/-! ### What is found in the body -/

theorem mem_escaped_unsetBody {setters : List (Text × Text)} {ss : List Node} (i : Nat)
    {escaped : List Text} {y : Text} : y ∈ (unsetBody setters i ss escaped).2.2 ↔
      y ∈ escaped ∨ (setters.lookup y).isSome = true ∧ ∃ s ∈ ss, s.Uses setters y := by
  induction ss generalizing i escaped with
  | nil => simp [unsetBody]
  | cons s ss ih =>
    rw [unsetBody]
    dsimp only
    rw [ih, Node.mem_escaped_unset]
    simp only [List.mem_cons, exists_eq_or_imp, and_or_left, or_assoc]

theorem nodup_foldl_insertNew {names ts : List Text} (h : ts.Nodup) :
    (names.foldl (fun ts n => insertNew n ts) ts).Nodup := by
  induction names generalizing ts with
  | nil => exact h
  | cons n names ih => exact ih (nodup_insertNew h)

/-- The setters that are synthesized are those that are used in the body other than by
    calling them. -/
theorem unsetCalls_synthesized (h : c.unsetCalls typescript = .ok c') :
    (c.synthesized.Nodup → c'.synthesized.Nodup) ∧ ∀ x, x ∈ c'.synthesized ↔ x ∈ c.synthesized ∨
      (c.setters.lookup x).isSome = true ∧ ∃ s ∈ c.body, s.Uses c.setters x := by
  unfold unsetCalls at h
  split at h
  · next hempty =>
    cases h
    rw [List.isEmpty_iff.1 hempty]
    simp
  · rw [(settleAll_sameState h).synthesized]
    refine ⟨nodup_foldl_insertNew, fun x => mem_foldl_insertNew.trans ?_⟩
    rw [mem_escaped_unsetBody]
    simp

/-- What is known of setters does not change once state is declared by variables, but
    for those that are synthesized. -/
theorem extractState_setters (h : c.extractState typescript = .ok c')
    (hd : c.extractCells typescript (List.range c.body.length) = .ok d) :
    c'.setters = d.setters ∧ (c.synthesized.Nodup → c'.synthesized.Nodup) ∧
      ∀ x, x ∈ c'.synthesized ↔ x ∈ c.synthesized ∨
        (d.setters.lookup x).isSome = true ∧ ∃ s ∈ d.body, s.Uses d.setters x := by
  obtain ⟨d', e, n, hd', -, he, hc'⟩ := extractState_eq_ok h
  cases hd.symm.trans hd'
  have hstate := propagate_sameState hc'
  have hsynthesized := unsetCalls_synthesized he
  rw [(extractCells_extractsFrom hd).synthesized, ← hstate.synthesized] at hsynthesized
  exact ⟨hstate.setters.trans (unsetCalls_sameState he).2.2, hsynthesized⟩

/-- Once its state is declared by variables, a statement has its calls of setters
    rewritten; one that did not declare state may also be made reactive. -/
theorem extractState_rewrites (h : c.extractState typescript = .ok c')
    (hd : c.extractCells typescript (List.range c.body.length) = .ok d) {i : Nat} {s : Node}
    (hs : d.body[i]? = some s) :
    c'.body[i]? = some (s.assigned d.setters) ∨ c.body[i]? = some s ∧ ∃ r names,
      reactiveForm typescript (s.assigned d.setters) = .ok (some (r, names)) ∧
      c'.body[i]? = some r := by
  have hi : i < c.body.length := by
    rw [← (extractCells_extractsFrom hd).length]
    exact (List.getElem?_eq_some_iff.1 hs).1
  have hs₀ := List.getElem?_eq_getElem hi
  have hbody := extractState_body h hs₀
  rw [(extractState_setters h hd).1] at hbody
  rcases extractCells_body List.nodup_range hd (List.mem_range.2 hi) hs₀ with
    ⟨hnone, hsame, -⟩ | ⟨sd, t, hsd, ht, hvariable, -⟩
  · cases hsame.symm.trans hs
    rcases hbody with ⟨sd, t, hsd, -⟩ | ⟨-, hbody | ⟨-, hr⟩⟩
    · rw [hnone] at hsd
      cases hsd
    · exact .inl hbody
    · exact .inr ⟨hs₀, hr⟩
  · cases hvariable.symm.trans hs
    rcases hbody with ⟨sd', t', hsd', ht', -, hbody⟩ | ⟨hnone, -⟩
    · cases hsd.symm.trans hsd'
      cases ht.symm.trans ht'
      exact .inl hbody
    · rw [hnone] at hsd
      cases hsd

/-- Extracting state brings up nothing that a test looks for, if replacing calls of
    setters does not. -/
theorem any_extractState {q : Node → Bool} (hq : ReactiveTest q)
    (hassigned : ∀ (setters : List (Text × Text)) (n : Node), n.any q = false →
      (n.assigned setters).any q = false)
    (hsetters : c.setters = []) (h : c.extractState typescript = .ok c')
    (hd : c.extractCells typescript (List.range c.body.length) = .ok d)
    (hcells : ∀ s ∈ d.body, s.any q = false) (hholes : ∀ s ∈ c.body, s.hasHole = false)
    (htargets : ∀ s ∈ c.body, ∀ p init, (s.assigned c'.setters).declared? = some (p, init) →
      readsTarget typescript p = true ∧ keepsOut q typescript p = true) :
    ∀ t ∈ c'.body, t.any q = false := by
  intro t ht
  obtain ⟨i, hi⟩ := List.mem_iff_getElem?.1 ht
  have hlt : i < d.body.length := by
    rw [(extractCells_extractsFrom hd).length, ← extractState_length h]
    exact (List.getElem?_eq_some_iff.1 hi).1
  obtain ⟨s, hs⟩ : ∃ s, d.body[i]? = some s := ⟨_, List.getElem?_eq_getElem hlt⟩
  have hnone := hassigned c'.setters s (hcells s (List.mem_of_getElem? hs))
  have hrewrites := extractState_rewrites h hd hs
  rw [← (extractState_setters h hd).1, hi] at hrewrites
  rcases hrewrites with hsame | ⟨hmem, r, names, hr, hsame⟩
  · rw [Option.some.inj hsame, hnone]
  · have hmem := List.mem_of_getElem? hmem
    have hhole : (s.assigned c'.setters).hasHole = false :=
      Node.hasHole_assigned (extractState_isHole hsetters h fun s hs _ _ => hholes s hs) (hholes s hmem)
    rw [Option.some.inj hsame]
    exact hq.any_reactiveForm hhole (htargets s hmem) hr hnone

end Component

/-! ### Setters that are written out -/

/-- The name of a function that assigns its parameter to a variable, with the names of
    both. -/
def Node.setterFunction? : Node → Option (Text × Text × Text)
  | .mk (.function _) _ [.mk (.binding name) _ _, _,
      .mk .params _ [.mk (.param _ _) _ [_, .mk (.binding param) _ _, _, _]], _,
      .mk .functionBody _ [.mk .expressionStatement _
        [.mk (.assign none) _ [.mk (.target value) _ _, .mk (.identifier argument) _ _]]]] =>
    if argument = param then some (name, param, value) else none
  | _ => none

/-- Whether the text of a setter is read as the function that it shows. -/
def readsSetter (typescript : Bool) (setter value : Text) : Bool :=
  let param : Text := if value = "value" then "nextValue" else "value"
  Template.passes (·.setterFunction? = some (setter, param, value)) (Template.read typescript
    ("function " ++ setter ++ "(" ++ param ++ ") \x7b " ++ value ++ " = " ++ param ++ "; \x7d"))

theorem setterFunction?_of_read {typescript : Bool} {setter value : Text} {f : Node}
    (h : readsSetter typescript setter value = true)
    (hf : Template.read typescript (Document.setterTemplate setter value) = .ok f) :
    f.setterFunction? = some (setter, Document.setterParam value, value) := by
  have h : Template.passes _ (Template.read _ (Document.setterTemplate setter value)) = true := h
  rw [hf, Template.passes] at h
  exact of_decide_eq_true h

theorem Document.setterParam_ne (value : Text) : setterParam value ≠ value := by
  unfold setterParam
  split
  · next h =>
    rw [h]
    decide
  · next h => exact fun heq => h heq.symm

/-- Those of some setters that set something, with what they set. -/
def Component.settersOf (c : Component) (names : List Text) : List (Text × Text) :=
  names.filterMap fun x => (c.setterValue? x).map (x, ·)

/-- There is one item for each setter that sets something, in order. -/
theorem Document.setterItems_eq_ok {typescript : Bool} {c : Component} {names items : List Text}
    (h : setterItems typescript c names = .ok items) :
    ∃ fs : List Node, items = fs.map Node.printStatement ∧
      List.Forall₂ (fun p f => Template.read typescript (setterTemplate p.1 p.2) = .ok f)
        (c.settersOf names) fs := by
  induction names generalizing items with
  | nil =>
    cases h
    exact ⟨[], rfl, .nil⟩
  | cons y names ih =>
    rw [setterItems] at h
    rw [Component.settersOf, List.filterMap_cons]
    split at h
    · next hv =>
      rw [hv]
      exact ih h
    · next v hv =>
      obtain ⟨f, hf, h⟩ := of_bind_eq_ok h
      obtain ⟨items', hitems, h⟩ := of_bind_eq_ok h
      cases h
      obtain ⟨fs, rfl, hfs⟩ := ih hitems
      rw [hv]
      exact ⟨f :: fs, rfl, .cons hf hfs⟩

namespace Component

variable {options : Options} {c : Component}

theorem settersOf_eq_map {names : List Text} (h : ∀ x ∈ names, (c.setterValue? x).isSome = true) :
    c.settersOf names = names.map fun x => (x, (c.setterValue? x).getD []) := by
  rw [← List.filterMap_eq_map]
  refine List.filterMap_congr fun x hx => ?_
  obtain ⟨v, hv⟩ := Option.isSome_iff_exists.1 (h x hx)
  simp [hv]

theorem mem_setters_of_mem_settersOf {names : List Text} {p : Text × Text}
    (h : p ∈ c.settersOf names) : p ∈ c.setters := by
  obtain ⟨x, -, hp⟩ := List.mem_filterMap.1 h
  obtain ⟨v, hv, rfl⟩ := Option.map_eq_some_iff.1 hp
  obtain ⟨l, r, hmem, -⟩ := List.lookup_eq_some_iff.1 hv
  simp [hmem]

/-- Before state is extracted there are no setters. -/
theorem props_fresh {source : Text}
    (h : compileThrough options [.props] source = .ok c) : c.setters = [] ∧ c.synthesized = [] := by
  obtain ⟨module, -, h⟩ := of_bind_eq_ok h
  obtain ⟨d, hd, h⟩ := of_bind_eq_ok h
  obtain ⟨e, he, h⟩ := of_bind_eq_ok (x := d.bindProps options.typescript) h
  cases h
  obtain ⟨aliases, hbound⟩ := bindProps_bound he
  obtain ⟨-, hsetters, hsynthesized⟩ := ofModule_fresh hd
  exact ⟨hbound.setters.trans hsetters, hbound.synthesized.trans hsynthesized⟩

theorem lowerMarkup_setters (c : Component) :
    c.lowerMarkup.setters = c.setters ∧ c.lowerMarkup.synthesized = c.synthesized := ⟨rfl, rfl⟩

theorem inlineMarkup_setters (c : Component) :
    c.inlineMarkup.setters = c.setters ∧ c.inlineMarkup.synthesized = c.synthesized := ⟨rfl, rfl⟩

/-- The steps after state is extracted do not touch setters. -/
theorem compiled_setters {source : Text} {c c' d : Component}
    (hc : compileThrough options [.props] source = .ok c)
    (hc' : c.extractState options.typescript = .ok c')
    (hd : compileThrough options Pass.all source = .ok d) :
    d.setters = c'.setters ∧ d.synthesized = c'.synthesized := by
  have h := (compileThrough_from hc [.state, .placement, .lowering, .hooks, .inlining]).symm.trans hd
  obtain ⟨e, he, h⟩ := of_bind_eq_ok (x := c.extractState options.typescript) h
  obtain ⟨f, hf, h⟩ := of_bind_eq_ok (x := e.checkPlacement) h
  obtain ⟨g, hg, h⟩ := of_bind_eq_ok (x := do (← f.lowerMarkup.lowerEffects).unmemo) h
  cases h
  cases hc'.symm.trans he
  cases checkPlacement_eq_ok hf
  obtain ⟨i, hi, hg⟩ := of_bind_eq_ok hg
  obtain ⟨body, ms, lifecycle, -, -, rfl⟩ := lowerEffects_eq_ok hi
  obtain ⟨module', body', -, -, rfl⟩ := unmemo_eq_ok hg
  obtain ⟨hsetters, hsynthesized⟩ := lowerMarkup_setters c'
  exact ⟨(inlineMarkup_setters _).1.trans hsetters, (inlineMarkup_setters _).2.trans hsynthesized⟩

end Component

/-- Whether the target of an assignment brings up no setter: it calls one only if the
    pattern does, and mentions one only if the pattern mentions or introduces its
    name. -/
def targetsSetters (setters : List (Text × Text)) (p : Node) : Node → Bool
  | .mk .expressionStatement _ [.mk (.assign none) _ [t, _]] =>
    (p.callsSetter setters || !t.callsSetter setters) &&
      setters.all fun q => p.mentions q.1 || p.names.contains q.1 || !t.mentions q.1
  | _ => true

/-- Whether reading a pattern as a target brings up no setter. -/
def keepsSetters (typescript : Bool) (setters : List (Text × Text)) (p : Node) : Bool :=
  Template.passes (targetsSetters setters p) (Template.read typescript (assignmentTemplate p))

namespace Component

open Node

variable {typescript : Bool} {setters : List (Text × Text)}

/-- What a statement with its calls of setters rewritten is when it is made reactive:
    it calls no setter, and mentions one only if it did before or introduces its
    name. -/
theorem setters_of_reactiveForm {s r : Node} {names : List Text}
    (hhole : (s.assigned setters).hasHole = false)
    (htargets : ∀ p init, (s.assigned setters).declared? = some (p, init) →
      readsTarget typescript p = true ∧ keepsSetters typescript setters p = true)
    (h : reactiveForm typescript (s.assigned setters) = .ok (some (r, names))) :
    r.kind = .labeled reactiveLabel ∧ r.callsSetter setters = false ∧
      ∀ x v, setters.lookup x = some v → r.mentions x = true →
        (s.assigned setters).mentions x = true ∨
        ∃ p init, (s.assigned setters).declared? = some (p, init) ∧ x ∈ p.names := by
  have hlabel (n : Node) : (reactive n).callsSetter setters = n.callsSetter setters ∧
      ∀ x, (reactive n).mentions x = n.mentions x := by
    refine ⟨?_, fun x => ?_⟩
    · rw [reactive, callsSetter_mk, sets?_of_kind (by simp)]
      simp
    · rw [reactive, mentions_mk]
      simp [Kind.reference?]
  rcases reactiveForm_cases h with ⟨-, rfl, -⟩ | ⟨p, init, a, hp, ha, rfl, -⟩
  · refine ⟨rfl, ?_, fun x v _ hx => .inl ?_⟩
    · rw [(hlabel _).1, callsSetter_assigned]
    · rwa [(hlabel _).2] at hx
  · obtain ⟨htarget, hkeeps⟩ := htargets p init hp
    obtain ⟨t, -, ⟨e, sp, sp', rfl⟩, sp₂, sp₃, hassign⟩ :=
      isAssignment_fill init htarget (hasHole_declared? hhole hp) ha
    rw [keepsSetters, ha, Template.passes, targetsSetters] at hkeeps
    simp only [Bool.and_eq_true, Bool.or_eq_true, Bool.not_eq_true', List.all_eq_true] at hkeeps
    obtain ⟨hcalls, hmentions⟩ := hkeeps
    have hnone := @callsSetter_assigned setters s
    have hpattern : p.callsSetter setters = false :=
      Bool.eq_false_iff.2 fun hp' => Bool.eq_false_iff.1 hnone ((any_of_declared? hp).1 hp')
    have hvalue : init.callsSetter setters = false :=
      Bool.eq_false_iff.2 fun hinit => Bool.eq_false_iff.1 hnone ((any_of_declared? hp).2 hinit)
    have ht : t.callsSetter setters = false := by
      rcases hcalls with hcalls | hcalls
      · rw [hpattern] at hcalls
        cases hcalls
      · exact hcalls
    refine ⟨rfl, ?_, fun x v hv hx => ?_⟩
    · rw [(hlabel _).1, hassign, callsSetter_mk, sets?_of_kind (by simp), List.any_cons,
        callsSetter_mk, sets?_of_kind (by simp)]
      simp [ht, hvalue]
    · rw [(hlabel _).2, hassign] at hx
      obtain hx | hx : t.mentions x = true ∨ init.mentions x = true := by
        simpa [mentions_mk, Kind.reference?] using hx
      · obtain ⟨l, r, hmem, -⟩ := List.lookup_eq_some_iff.1 hv
        rcases hmentions (x, v) (by simp [hmem]) with (hx' | hx') | hx'
        · exact .inl ((any_of_declared? hp).1 hx')
        · exact .inr ⟨p, init, hp, by simpa using hx'⟩
        · rw [hx] at hx'
          cases hx'
      · exact .inl ((any_of_declared? hp).2 hx)

/-- What is left of setters in a statement of the body. -/
theorem setters_left {c c' d : Component} (hsetters : c.setters = [])
    (hc' : c.extractState typescript = .ok c')
    (hd : c.extractCells typescript (List.range c.body.length) = .ok d)
    (hholes : ∀ s ∈ c.body, s.hasHole = false)
    (htargets : ∀ s ∈ c.body, ∀ p init, (s.assigned c'.setters).declared? = some (p, init) →
      readsTarget typescript p = true ∧ keepsSetters typescript c'.setters p = true)
    {i : Nat} {s t : Node} (hs : d.body[i]? = some s) (ht : c'.body[i]? = some t) :
    t.callsSetter c'.setters = false ∧ ∀ x v, c'.setters.lookup x = some v → t.mentions x = true →
      (s.assigned c'.setters).mentions x = true ∨ t.kind = .labeled reactiveLabel ∧
        ∃ p init, (s.assigned c'.setters).declared? = some (p, init) ∧ x ∈ p.names := by
  have hrewrites := extractState_rewrites hc' hd hs
  rw [← (extractState_setters hc' hd).1] at hrewrites
  rcases hrewrites with hsame | ⟨hmem, r, names, hr, hsame⟩
  · cases ht.symm.trans hsame
    exact ⟨callsSetter_assigned s, fun x v _ hx => .inl hx⟩
  · cases ht.symm.trans hsame
    have hmem := List.mem_of_getElem? hmem
    have hhole : (s.assigned c'.setters).hasHole = false :=
      hasHole_assigned (extractState_isHole hsetters hc' fun s hs _ _ => hholes s hs) (hholes s hmem)
    obtain ⟨hkind, hcalls, hmentions⟩ := setters_of_reactiveForm hhole (htargets s hmem) hr
    exact ⟨hcalls, fun x v hv hx => (hmentions x v hv hx).imp_right fun h => ⟨hkind, h⟩⟩

/-- The document ends with the functions of the synthesized setters. -/
theorem document_setters {options : Options} {c : Component} {doc : Document}
    (h : c.document options = .ok doc)
    (hnames : ∀ x ∈ c.synthesized, (c.setterValue? x).isSome = true)
    (hsetters : ∀ p ∈ c.setters, readsSetter options.typescript p.1 p.2 = true) :
    ∃ before, ∃ fs : List Node, { c with synthesized := [] }.script options = .ok before ∧
      doc.script = before ++ fs.map Node.printStatement ∧ fs.length = c.synthesized.length ∧
      ∀ (i : Nat) x, c.synthesized[i]? = some x → ∃ f v param, fs[i]? = some f ∧
        c.setters.lookup x = some v ∧ f.setterFunction? = some (x, param, v) ∧ param ≠ v := by
  obtain ⟨script, markup, hscript, -, rfl⟩ := document_eq_ok h
  obtain ⟨items, hitems, hscript⟩ := of_bind_eq_ok hscript
  cases hscript
  obtain ⟨fs, rfl, hfs⟩ := Document.setterItems_eq_ok hitems
  have hlength : fs.length = c.synthesized.length := by
    rw [← hfs.length_eq, settersOf_eq_map hnames, List.length_map]
  refine ⟨_, fs, rfl, by rw [List.append_nil], hlength, fun i x hx => ?_⟩
  obtain ⟨v, hv⟩ := Option.isSome_iff_exists.1 (hnames x (List.mem_of_getElem? hx))
  have hi := (List.getElem?_eq_some_iff.1 hx).1
  have hp : (c.settersOf c.synthesized)[i]? = some (x, v) := by
    simp [settersOf_eq_map hnames, hx, hv]
  have hread := (List.forall₂_iff_get.1 hfs).2 i (List.getElem?_eq_some_iff.1 hp).1 (hlength ▸ hi)
  rw [List.get_eq_getElem, List.get_eq_getElem, (List.getElem?_eq_some_iff.1 hp).2] at hread
  have hreads := hsetters (x, v) (mem_setters_of_mem_settersOf (List.mem_of_getElem? hp))
  exact ⟨_, v, _, List.getElem?_eq_getElem _, hv, setterFunction?_of_read hreads hread,
    Document.setterParam_ne v⟩

/-- Setters are left as they should be. Hypotheses: no setter has the name of a value;
    the source does not use the names of holes; and what is written out as text, that is,
    targets and the functions of setters, is read as it is meant. Then

    * no call of a setter is left in the body;
    * a setter that is mentioned in the body is synthesized, unless the mention is
      the target that a declaration of its name has become, or `undefined` for a
      missing argument;
    * the synthesized setters are those that were used, once state is declared by
      variables, other than by the callee or in the type arguments of a call of a
      setter, each once;
    * the script ends with one function for each of them, which assigns its parameter
      to the value, and the parameter has another name than the value. -/
theorem setters_closed {options : Options} {source : Text} {c c' : Component}
    (hc : compileThrough options [.props] source = .ok c)
    (hc' : c.extractState options.typescript = .ok c')
    (hvalues : ∀ p ∈ c'.setters, ∀ q ∈ c'.setters, p.1 ≠ q.2)
    (hholes : ∀ s ∈ c.body, s.hasHole = false)
    (htargets : ∀ s ∈ c.body, ∀ p init, (s.assigned c'.setters).declared? = some (p, init) →
      readsTarget options.typescript p = true ∧ keepsSetters options.typescript c'.setters p = true)
    (hsetters : ∀ p ∈ c'.setters, readsSetter options.typescript p.1 p.2 = true) :
    ∃ d, c.extractCells options.typescript (List.range c.body.length) = .ok d ∧
      (∀ t ∈ c'.body, t.callsSetter c'.setters = false) ∧
      (∀ (i : Nat) s t x, d.body[i]? = some s → c'.body[i]? = some t →
        (c'.setters.lookup x).isSome = true → t.mentions x = true →
          x ∈ c'.synthesized ∨ x = "undefined" ∨ t.kind = .labeled reactiveLabel ∧
            ∃ p init, (s.assigned c'.setters).declared? = some (p, init) ∧ x ∈ p.names) ∧
      c'.synthesized.Nodup ∧
      (∀ x, x ∈ c'.synthesized ↔
        (c'.setters.lookup x).isSome = true ∧ ∃ s ∈ d.body, s.Uses c'.setters x) ∧
      ∀ e doc, compileThrough options Pass.all source = .ok e → e.document options = .ok doc →
        ∃ before, ∃ fs : List Node, { e with synthesized := [] }.script options = .ok before ∧
          doc.script = before ++ fs.map Node.printStatement ∧
          fs.length = c'.synthesized.length ∧
          ∀ (i : Nat) x, c'.synthesized[i]? = some x → ∃ f v param, fs[i]? = some f ∧
            c'.setters.lookup x = some v ∧ f.setterFunction? = some (x, param, v) ∧ param ≠ v := by
  obtain ⟨hnone, hempty⟩ := props_fresh hc
  obtain ⟨d, -, -, hd, -⟩ := extractState_eq_ok hc'
  obtain ⟨hsame, hnodup, hsynthesized⟩ := extractState_setters hc' hd
  rw [← hsame] at hsynthesized
  have huses (x : Text) : x ∈ c'.synthesized ↔
      (c'.setters.lookup x).isSome = true ∧ ∃ s ∈ d.body, s.Uses c'.setters x := by
    rw [hsynthesized x, hempty]
    simp
  have hlength : c'.body.length = d.body.length := by
    rw [extractState_length hc', (extractCells_extractsFrom hd).length]
  refine ⟨d, hd, fun t ht => ?_, fun i s t x hs ht hx hmention => ?_, hnodup (by simp [hempty]),
    huses, fun e doc he hdoc => ?_⟩
  · obtain ⟨i, hi⟩ := List.mem_iff_getElem?.1 ht
    have hlt : i < d.body.length := hlength ▸ (List.getElem?_eq_some_iff.1 hi).1
    exact (setters_left hnone hc' hd hholes htargets (List.getElem?_eq_getElem hlt) hi).1
  · obtain ⟨v, hv⟩ := Option.isSome_iff_exists.1 hx
    rcases (setters_left hnone hc' hd hholes htargets hs ht).2 x v hv hmention with hleft | hname
    · rcases uses_of_mentions_assigned hleft with huse | ⟨p, hp, hvalue⟩ | hundefined
      · exact .inl ((huses x).2 ⟨hx, s, List.mem_of_getElem? hs, huse⟩)
      · -- A setter is no value.
        obtain ⟨l, r, hmem, -⟩ := List.lookup_eq_some_iff.1 hv
        exact absurd hvalue (hvalues (x, v) (by simp [hmem]) p hp)
      · exact .inr (.inl hundefined)
    · exact .inr (.inr hname)
  · obtain ⟨hsetters', hsynthesized'⟩ := compiled_setters hc hc' he
    rw [← hsetters', ← hsynthesized']
    refine document_setters hdoc (fun x hx => ?_) (hsetters' ▸ hsetters)
    rw [setterValue?, hsetters']
    exact ((huses x).1 (hsynthesized' ▸ hx)).1

/-- A component whose setter is called within a pattern that becomes a target, and is
    also handed on. -/
def handedOnSource : Text :=
  "export default () => \x7b
    const [n, setN] = useState(0);
    const \x7b y = setN(1) \x7d = n;
    return <p onClick=\x7bsetN\x7d>\x7by\x7d</p>;
  \x7d;"

theorem handedOn_setters_closed :
    ∃ c c' e doc, compileThrough {} [.props] handedOnSource = .ok c ∧
      c.extractState false = .ok c' ∧ (∀ p ∈ c'.setters, ∀ q ∈ c'.setters, p.1 ≠ q.2) ∧
      (∀ s ∈ c.body, s.hasHole = false) ∧
      (∀ s ∈ c.body, ∀ p init, (s.assigned c'.setters).declared? = some (p, init) →
        readsTarget false p = true ∧ keepsSetters false c'.setters p = true) ∧
      (∀ p ∈ c'.setters, readsSetter false p.1 p.2 = true) ∧
      compileThrough {} Pass.all handedOnSource = .ok e ∧ e.document {} = .ok doc ∧
      c'.synthesized = [("setN" : Text)] ∧ (∀ t ∈ c'.body, t.callsSetter c'.setters = false) ∧
      ∃ (before : List Text) (f : Node) (param : Text), doc.script = before ++ [f.printStatement] ∧
        f.setterFunction? = some (("setN" : Text), param, ("n" : Text)) ∧ param ≠ "n" := by
  have hsource : ((compileThrough {} [.props] handedOnSource).toOption.bind fun c =>
      (c.extractState false).toOption.bind fun c' =>
      (compileThrough {} Pass.all handedOnSource).toOption.bind fun e =>
      (e.document {}).toOption.map fun _ =>
        (c'.synthesized, c'.setters, (c.body.all fun s => !s.hasHole) &&
          (c.body.all fun s => (s.assigned c'.setters).declared?.all fun q =>
            readsTarget false q.1 && keepsSetters false c'.setters q.1) &&
          c'.setters.all fun p => readsSetter false p.1 p.2)) =
      some ([("setN" : Text)], [(("setN" : Text), ("n" : Text))], true) := by
    rw [(by apply String.toList_ofList : handedOnSource = _)]
    decide +kernel
  obtain ⟨c, hc, hsource⟩ := of_toOption_bind hsource
  obtain ⟨c', hc', hsource⟩ := of_toOption_bind hsource
  obtain ⟨e, he, hsource⟩ := of_toOption_bind hsource
  obtain ⟨doc, hdoc, hsource⟩ := of_toOption_map hsource
  simp only [Prod.mk.injEq, Bool.and_eq_true, List.all_eq_true, Bool.not_eq_true'] at hsource
  obtain ⟨hsynthesized, hsetters, ⟨hholes, htargets⟩, hread⟩ := hsource
  have htargets (s : Node) (hs : s ∈ c.body) (p init : Node)
      (hp : (s.assigned c'.setters).declared? = some (p, init)) :
      readsTarget false p = true ∧ keepsSetters false c'.setters p = true := by
    have h := htargets s hs
    rw [hp] at h
    exact Bool.and_eq_true_iff.1 h
  have hvalues : ∀ p ∈ c'.setters, ∀ q ∈ c'.setters, p.1 ≠ q.2 := by
    rw [hsetters]
    decide
  obtain ⟨d, -, hcalls, -, -, -, hwritten⟩ :=
    setters_closed hc hc' hvalues hholes htargets hread
  obtain ⟨before, fs, -, hscript, hlength, hfs⟩ := hwritten e doc he hdoc
  rw [hsynthesized] at hlength hfs
  obtain ⟨f, v, param, hf, hv, hfunction, hparam⟩ := hfs 0 "setN" rfl
  have hone : fs = [f] := by
    obtain ⟨g, rfl⟩ := List.length_eq_one_iff.1 hlength
    rw [Option.some.inj hf]
  obtain rfl : v = "n" := by
    rw [hsetters] at hv
    exact (Option.some.inj hv).symm
  exact ⟨c, c', e, doc, hc, hc', hvalues, hholes, htargets, hread, he, hdoc, hsynthesized, hcalls,
    before, f, param, by rw [hscript, hone]; rfl, hfunction, hparam⟩

/-- A setter in the type arguments of a call of a setter is not synthesized: it is gone
    with the call. -/
theorem setter_in_type_arguments_dropped :
    ((compileThrough { typescript := true } [.props] "export default () => \x7b
        const [n, setN] = useState(0); setN<typeof setN>(1); return <p/>; \x7d;"
        ).toOption.bind fun c =>
      (c.extractState true).toOption.bind fun c' =>
      (c.extractCells true (List.range c.body.length)).toOption.bind fun d =>
      d.body[1]?.bind fun s => (s.at? [0, 1, 0, 0]).map fun m =>
        (m.kind.reference?, c'.setterValue? "setN", c'.synthesized)) =
      some (some ("setN" : Text), some ("n" : Text), []) := by
  conv =>
    enter [1, 1, 1, 3]
    apply String.toList_ofList
  decide +kernel

end Component

end Unhook
