import Unhook.Proofs.Unhooked

/-!
# State comes in pairs

A statement declares state if it is, by itself, the declaration of a pair of
names by a call for state (`Node.pair?`). When state is extracted, each such
statement becomes a piece of state, in order, and the declaration of a variable
that is not made reactive; any other call for state is a problem.

* `Component.extractCells_pairs`: the pieces of state are the pairs that are
  declared;
* `Templated`: steps that fail for nothing but a text that cannot be read;
* `Component.extractState_takes_pairs`: what is accepted is the pair form, and what is
  in the pair form is not refused for its form.

Two things are relied upon. A pattern that is written as the target of an
assignment is read as that target, and brings up no call for state; and no name
of the component is the one that templates use for their hole. A default that
uses that name is filled with the value that the pattern takes apart, and so a
call for state can come up (`Component.hole_calls_state`).
-/

namespace Unhook

namespace Node

variable {q : Node → Bool}

/-! ### Places -/

mutual

/-- The places of a tree that pass a test, in reading order. -/
def places (q : Node → Bool) : Node → List (List Nat)
  | mk k s ps => (if q (mk k s ps) then [[]] else []) ++ placesList q 0 ps

/-- The places of some trees, counted from `i`, that pass a test. -/
def placesList (q : Node → Bool) (i : Nat) : List Node → List (List Nat)
  | [] => []
  | n :: ns => (n.places q).map (i :: ·) ++ placesList q (i + 1) ns

end

variable {n : Node}

theorem mem_placesList {i : Nat} {ns : List Node} {p : List Nat} :
    p ∈ placesList q i ns ↔ ∃ j n p', ns[j]? = some n ∧ p = (i + j) :: p' ∧ p' ∈ n.places q := by
  induction ns generalizing i with
  | nil => simp [placesList]
  | cons n ns ih =>
    rw [placesList, List.mem_append, ih]
    constructor
    · rintro (h | ⟨j, m, p', hm, rfl, hp'⟩)
      · obtain ⟨p', hp', rfl⟩ := List.mem_map.1 h
        exact ⟨0, n, p', rfl, rfl, hp'⟩
      · exact ⟨j + 1, m, p', hm, by rw [Nat.add_assoc, Nat.add_comm 1], hp'⟩
    · rintro ⟨j, m, p', hm, rfl, hp'⟩
      cases j with
      | zero =>
        cases hm
        exact .inl (List.mem_map_of_mem hp')
      | succ j => exact .inr ⟨j, m, p', hm, by rw [Nat.add_assoc, Nat.add_comm 1], hp'⟩

theorem mem_places {p : List Nat} : p ∈ n.places q ↔ ∃ m, n.at? p = some m ∧ q m = true := by
  induction n generalizing p with
  | mk k s ps ih =>
    rw [places, List.mem_append, mem_placesList]
    cases p with
    | nil => by_cases hq : q (mk k s ps) <;> simp [hq]
    | cons i p =>
      have hself : i :: p ∉ (if q (mk k s ps) then [[]] else []) := by
        split <;> simp
      simp only [hself, false_or, Nat.zero_add, at?_cons, parts_mk]
      constructor
      · rintro ⟨j, n, p', hn, heq, hp'⟩
        cases heq
        obtain ⟨m, hm, hq⟩ := (ih n (List.mem_of_getElem? hn)).1 hp'
        exact ⟨m, by rw [hn]; exact hm, hq⟩
      · rintro ⟨m, hm, hq⟩
        obtain ⟨n, hn, hm⟩ := Option.bind_eq_some_iff.1 hm
        exact ⟨i, n, p, hn, rfl, (ih n (List.mem_of_getElem? hn)).2 ⟨m, hm, hq⟩⟩

/-- What passes a test somewhere has a place. -/
theorem exists_place_of_any (h : n.any q = true) : ∃ p, p ∈ n.places q := by
  induction n with
  | mk k s ps ih =>
    rw [any_mk, anyList_eq, Bool.or_eq_true] at h
    rcases h with h | h
    · exact ⟨[], mem_places.2 ⟨_, rfl, h⟩⟩
    · obtain ⟨n, hn, h⟩ := List.any_eq_true.1 h
      obtain ⟨i, hi⟩ := List.getElem?_of_mem hn
      obtain ⟨p, hp⟩ := ih n hn h
      obtain ⟨m, hm, hq⟩ := mem_places.1 hp
      exact ⟨i :: p, mem_places.2 ⟨m, by rw [at?_cons, parts_mk, hi]; exact hm, hq⟩⟩

theorem find?_eq_none_iff_any : n.find? q = none ↔ n.any q = false := by
  induction n with
  | mk k s ps ih =>
    rw [find?_eq_none, any_mk, anyList_eq, Bool.or_eq_false_iff, List.any_eq_false, parts_mk]
    exact and_congr_right fun _ => forall₂_congr fun m hm => by rw [ih m hm, Bool.not_eq_true]

/-! ### Calls for state -/

/-- Whether a node is a call for state, in an optional chain or not. -/
def isStateCall (n : Node) : Bool := n.hook? = some .state

/-- The names of the value and the setter, if a statement is the declaration of a
    pair by a call for state. -/
def pair? : Node → Option (Text × Text)
  | mk (.declaration _ _) _ [mk (.declarator _) _
      [mk .arrayPattern _ [mk (.binding value) _ _, mk (.binding setter) _ _], _, call]] =>
    if call.expressionHook? = some .state then some (value, setter) else none
  | _ => none

theorem isStateCall_mk {k : Kind} {s : Span} {ps : List Node} (h : (mk k s ps).isStateCall = true) :
    ∃ l p callee rest, k = .call l p ∧ ps = callee :: rest ∧ callee.calleeHook? = some .state := by
  have hhook := of_decide_eq_true h
  unfold hook? at hhook
  split at hhook
  · next l p s' callee rest heq =>
    cases heq
    exact ⟨l, p, callee, rest, rfl, rfl, hhook⟩
  · cases hhook

theorem reactiveTest_isStateCall : ReactiveTest isStateCall where
  labeled _ _ := rfl
  statement _ _ := rfl
  assign _ _ := rfl

/-- The assignment that a call of a setter becomes calls for state only if an argument
    does. -/
theorem any_setterCall {v : Text} {arguments : List Node}
    (h : (setterCall v arguments).any isStateCall = true) :
    ∃ a ∈ arguments, a.any isStateCall = true := by
  obtain ⟨value, s, hvalue, hcases⟩ := setterCall_cases v arguments
  have hcalls : value.any isStateCall = true := by
    rw [hvalue, assigning] at h
    simpa [any_mk, anyList_eq, isStateCall, hook?] using h
  rcases hcases with rfl | ⟨a, ha, rfl | ⟨hfunction, rfl⟩⟩
  · cases hcalls
  · exact ⟨_, ha, hcalls⟩
  · -- A function is no hook, so calling it is no call for state.
    have hnone : a.calleeHook? = none := by
      obtain ⟨k, sa, ps⟩ := a
      cases k
      case arrow | function => rfl
      all_goals cases hfunction
    have hself : (calling a [reference v s] s).isStateCall = false :=
      Bool.eq_false_iff.2 fun h => by
        obtain ⟨_, _, callee, rest, -, heq, hcallee⟩ := isStateCall_mk h
        cases heq
        rw [hnone] at hcallee
        cases hcallee
    have hreference : (reference v s).any isStateCall = false := rfl
    have habsent : absent.any isStateCall = false := rfl
    refine ⟨a, ha, ?_⟩
    rw [calling] at hself hcalls
    rw [any_mk, hself, anyList_eq] at hcalls
    simpa [hreference, habsent] using hcalls

/-- Replacing calls of setters brings up no call for state. -/
theorem any_isStateCall_assigned (setters : List (Text × Text)) (n : Node)
    (hn : n.any isStateCall = false) : (n.assigned setters).any isStateCall = false := by
  induction n with
  | mk k s ps ih =>
    rw [any_mk, anyList_eq, Bool.or_eq_false_iff, List.any_eq_false] at hn
    obtain ⟨hself, hparts⟩ := hn
    have hassigned : ∀ n ∈ ps, (n.assigned setters).any isStateCall = false :=
      fun n hn => ih n hn (Bool.not_eq_true _ ▸ hparts n hn)
    cases hv : (mk k s ps).sets? setters with
    | some v =>
      rw [assigned_of_sets hv]
      refine Bool.eq_false_iff.2 fun h => ?_
      obtain ⟨a', ha', h⟩ := any_setterCall h
      obtain ⟨a, ha, rfl⟩ := List.mem_map.1 ha'
      rw [hassigned a (List.mem_of_mem_drop ha)] at h
      cases h
    | none =>
      rw [assigned_of_not_sets hv, any_mk, anyList_eq, Bool.or_eq_false_iff, List.any_eq_false]
      refine ⟨Bool.eq_false_iff.2 fun h => ?_, List.forall_mem_map.2 fun n hn => ?_⟩
      · -- What is called is a hook only if it was one before.
        obtain ⟨l, p, callee, rest, hk, hps, hcallee⟩ := isStateCall_mk h
        obtain ⟨callee₀, rest₀, rfl, rfl, -⟩ := List.map_eq_cons_iff.1 hps
        have hk : k = .call l p := hk
        subst hk
        have hhook := (hushes_assigned (p := fun _ => true) setters callee₀).callee _ hcallee
        have hself : callee₀.calleeHook? ≠ some .state := of_decide_eq_false hself
        exact hself hhook
      · rw [hassigned n hn]
        simp

/-- The shape of a declaration of a pair. -/
theorem pair?_eq_some {s : Node} {value setter : Text} (h : s.pair? = some (value, setter)) :
    ∃ k a sp b sp' sp₂ sp₃ qs sp₄ qs' note call,
      s = mk (.declaration k a) sp [mk (.declarator b) sp' [mk .arrayPattern sp₂
        [mk (.binding value) sp₃ qs, mk (.binding setter) sp₄ qs'], note, call]] ∧
      call.expressionHook? = some .state := by
  unfold pair? at h
  split at h
  · next k a sp b sp' sp₂ value sp₃ qs setter sp₄ qs' note call =>
    split at h
    · next hcall =>
      cases h
      exact ⟨k, a, sp, b, sp', sp₂, sp₃, qs, sp₄, qs', note, call, rfl, hcall⟩
    · cases h
  · cases h

/-- The first argument of a call is its third part. -/
theorem parts_of_firstArgument? {n a : Node} (h : n.firstArgument? = some a) :
    n.parts[2]? = some a := by
  rw [firstArgument?, arguments] at h
  cases hparts : n.parts.drop 2 with
  | nil =>
    rw [hparts] at h
    cases h
  | cons b bs =>
    rw [hparts, first?_cons] at h
    split at h
    · cases h
    · cases h
      rw [← List.head?_drop, hparts]
      rfl

/-- All the calls for state of a statement are what it declares a pair by. -/
def StatePaired (s : Node) : Prop :=
  ∀ p ∈ s.places isStateCall, p = [0, 2] ∧ s.pair?.isSome = true

end Node

namespace StateDeclaration

variable {s : Node}

/-- The pair of a statement is the state that it declares. -/
theorem ofStatement?_of_pair? {value setter : Text} (h : s.pair? = some (value, setter)) :
    ∃ init, ofStatement? s = .ok (some ⟨value, setter, init⟩) := by
  obtain ⟨k, a, sp, b, sp', sp₂, sp₃, qs, sp₄, qs', note, call, rfl, hcall⟩ :=
    Node.pair?_eq_some h
  refine ⟨call.firstArgument?, ?_⟩
  rw [ofStatement?, List.find?_cons_of_pos (by simpa [Node.declaresState] using hcall)]
  rfl

theorem pair?_of_ofStatement? {sd : StateDeclaration}
    (h : ofStatement? s = .ok (some sd)) : s.pair? = some (sd.value, sd.setter) := by
  obtain ⟨k, a, sp, dk, sp', sp₂, sp₃, qs, sp₄, qs', note, init, rfl, -⟩ := ofStatement?_eq_some h
  have hstate : Node.declaresState (.mk dk sp' [.mk .arrayPattern sp₂
      [.mk (.binding sd.value) sp₃ qs, .mk (.binding sd.setter) sp₄ qs'], note, init]) = true := by
    refine eq_true_of_ne_false fun hnone => ?_
    rw [ofStatement?, List.find?_cons_of_neg (by simp [hnone])] at h
    cases h
  unfold Node.declaresState at hstate
  split at hstate
  · next heq =>
    cases heq
    exact if_pos (of_decide_eq_true hstate)
  · cases hstate

/-- State whose calls all declare pairs is declared in the right form. -/
theorem ofStatement?_of_statePaired (h : s.StatePaired) : ∃ sd?, ofStatement? s = .ok sd? := by
  cases hpair : s.pair? with
  | some pair =>
    obtain ⟨init, hstate⟩ := ofStatement?_of_pair? hpair
    exact ⟨_, hstate⟩
  | none =>
    unfold ofStatement?
    split
    · next k a sp ds =>
      split
      · exact ⟨none, rfl⟩
      · next d hd =>
        -- The declarator is given a call for state, which has its place.
        obtain ⟨i, hi⟩ := List.getElem?_of_mem (List.mem_of_find?_eq_some hd)
        have hstate := List.find?_some hd
        unfold Node.declaresState at hstate
        split at hstate
        · next b sp' pattern note init =>
          have hcall := Node.hook?_of_expressionHook? (of_decide_eq_true hstate)
          have hplace : [i, 2] ∈ (Node.mk (.declaration k a) sp ds).places Node.isStateCall :=
            Node.mem_places.2 ⟨init, by rw [Node.at?_cons, Node.parts_mk, hi]; rfl,
              decide_eq_true hcall⟩
          have hpaired := (h _ hplace).2
          rw [hpair] at hpaired
          cases hpaired
        · cases hstate
    · exact ⟨none, rfl⟩

end StateDeclaration

/-! ### What goes wrong -/

/-- Something that fails for nothing but a text that cannot be read. -/
def Templated {α : Type} (x : Except Problem α) : Prop :=
  ∀ e, x = .error e → ∃ text, e.cause = .template text

namespace Templated

variable {α β : Type}

theorem ok (a : α) : Templated (.ok a : Except Problem α) := fun _ h => by cases h

theorem bind {x : Except Problem α} {f : α → Except Problem β} (hx : Templated x)
    (hf : ∀ a, x = .ok a → Templated (f a)) : Templated (x >>= f) := by
  intro e h
  cases x with
  | error e' => exact hx e (by cases h; rfl)
  | ok a => exact hf a rfl e h

end Templated

theorem Template.templated_read (typescript : Bool) (text : Text) :
    Templated (read typescript text) := by
  unfold read
  split
  · exact .ok _
  · intro e h
    cases h
    exact ⟨text, rfl⟩

theorem Template.templated_readWith (typescript : Bool) (text : Text) (value : Node) :
    Templated (readWith typescript text value) := by
  intro e h
  rw [readWith] at h
  cases hread : read typescript text with
  | error e' =>
    rw [hread] at h
    cases h
    exact templated_read typescript text e hread
  | ok s =>
    rw [hread] at h
    cases h

theorem templated_reactiveForm (typescript : Bool) (s : Node) :
    Templated (reactiveForm typescript s) := by
  unfold reactiveForm
  split
  · split
    · exact .ok _
    · exact (Template.templated_readWith _ _ _).bind fun _ _ => .ok _
  · exact .ok _

theorem StateDeclaration.templated_declaration (typescript : Bool) (sd : StateDeclaration) :
    Templated (sd.declaration typescript) := by
  unfold declaration
  split
  · exact Template.templated_readWith _ _ _
  · exact Template.templated_read _ _

namespace Component

variable {typescript : Bool} {c c' d : Component} {is : List Nat} {i : Nat}

theorem templated_settle (i : Nat) (c : Component) : Templated (c.settle typescript i) := by
  unfold settle
  split
  · exact .ok _
  · split
    · refine (templated_reactiveForm _ _).bind fun r _ => ?_
      split <;> exact .ok _
    · exact .ok _

theorem templated_settleAll (is : List Nat) (c : Component) :
    Templated (c.settleAll typescript is) := by
  induction is generalizing c with
  | nil => exact .ok _
  | cons i is ih => exact (templated_settle i c).bind fun r _ => ih r.1

theorem templated_unsetCalls (c : Component) : Templated (c.unsetCalls typescript) := by
  unfold unsetCalls
  split
  · exact .ok _
  · exact templated_settleAll _ _

theorem templated_round (is : List Nat) (c : Component) : Templated (c.round typescript is) := by
  induction is generalizing c with
  | nil => exact .ok _
  | cons i is ih =>
    rw [round]
    split
    · exact (templated_settle i c).bind fun r _ => (ih r.1).bind fun _ _ => .ok _
    · exact ih c

theorem templated_propagate (c : Component) : Templated (c.propagate typescript) := by
  have hrounds (fuel : Nat) (c : Component) : Templated (c.rounds typescript fuel) := by
    induction fuel generalizing c with
    | zero => exact .ok _
    | succ fuel ih =>
      refine (templated_round _ c).bind ?_
      rintro ⟨d, n⟩ -
      dsimp only
      split
      · exact .ok _
      · exact (ih d).bind fun _ _ => .ok _
  exact hrounds _ c

/-- Where the calls for state of each statement declare a pair, looking for state goes
    wrong for nothing but a text. -/
theorem templated_extractCells (hn : is.Nodup)
    (h : ∀ i ∈ is, ∀ s, c.body[i]? = some s → s.StatePaired) :
    Templated (c.extractCells typescript is) := by
  induction is generalizing c with
  | nil => exact .ok _
  | cons i is ih =>
    rw [List.nodup_cons] at hn
    refine Templated.bind (x := c.extractCell typescript i) ?_ fun e he => ?_
    · unfold extractCell
      split
      · exact .ok _
      · next s hs =>
        obtain ⟨sd?, hsd⟩ := StateDeclaration.ofStatement?_of_statePaired
          (h i List.mem_cons_self s hs)
        rw [hsd]
        cases sd? with
        | none => exact .ok _
        | some sd => exact (sd.templated_declaration typescript).bind fun _ _ => .ok _
    · refine ih hn.2 fun j hj s hs => h j (List.mem_cons_of_mem _ hj) s ?_
      rw [← hs, extractCell_frame he fun hij => hn.1 (hij ▸ hj)]

/-! ### What is found -/

/-- The pieces of state that are found are the pairs that are declared, in order. -/
theorem extractCells_pairs (hn : is.Nodup) (h : c.extractCells typescript is = .ok d) :
    d.cells.map (fun k => (k.declaration, k.value, k.setter)) =
      c.cells.map (fun k => (k.declaration, k.value, k.setter)) ++
        is.filterMap fun i => (c.body[i]?.bind Node.pair?).map fun p => (i, p) := by
  induction is generalizing c with
  | nil =>
    cases h
    simp
  | cons i is ih =>
    rw [List.nodup_cons] at hn
    obtain ⟨e, he, htail⟩ := of_bind_eq_ok h
    have hlater : (is.filterMap fun j => (e.body[j]?.bind Node.pair?).map fun p => (j, p)) =
        is.filterMap fun j => (c.body[j]?.bind Node.pair?).map fun p => (j, p) :=
      List.filterMap_congr fun j hj => by
        rw [extractCell_frame he fun hij => hn.1 (hij ▸ hj)]
    rw [ih hn.2 htail, hlater]
    obtain ⟨rfl, hnone⟩ | ⟨s, sd, t, hs, hsd, -, rfl⟩ := extractCell_eq_ok he
    · have hpair : e.body[i]?.bind Node.pair? = none := by
        refine Option.bind_eq_none_iff.2 fun s hs => Option.eq_none_iff_forall_ne_some.2 fun pair hp => ?_
        obtain ⟨init, hstate⟩ := StateDeclaration.ofStatement?_of_pair? hp
        cases (hnone s hs).symm.trans hstate
      rw [List.filterMap_cons_none (by rw [hpair]; rfl)]
    · have hpair := StateDeclaration.pair?_of_ofStatement? hsd
      rw [List.filterMap_cons_some (b := (i, sd.value, sd.setter)) (by simp [hs, hpair])]
      simp [track, StateDeclaration.cell]

theorem settle_cells {bound : Bool} (h : c.settle typescript i = .ok (c', bound)) :
    c'.cells = c.cells := by
  rcases settle_eq_ok h with ⟨rfl, -⟩ | ⟨-, -, -, ⟨-, -, rfl⟩ | ⟨-, -, -, -, rfl⟩⟩ <;> rfl

/-- Nothing becomes state but what is found to be. -/
theorem extractState_cells (h : c.extractState typescript = .ok c')
    (hd : c.extractCells typescript (List.range c.body.length) = .ok d) : c'.cells = d.cells := by
  obtain ⟨d', e, n, hd', -, he, hc'⟩ := extractState_eq_ok h
  cases hd.symm.trans hd'
  obtain ⟨is, ss, -, he⟩ := unsetCalls_eq_ok he
  have hunset : e.cells = d.cells := settleAll_keeps (P := fun e => e.cells = d.cells)
    (fun h hc => (settle_cells h).trans hc) he rfl
  exact propagate_keeps (P := fun e => e.cells = d.cells) (fun h hc => (settle_cells h).trans hc)
    hc' hunset

/-- Whether a name is read after `let` as the declaration of a variable, which does not
    call for state if it has no value. -/
def readsValue (typescript : Bool) (name : Text) : Bool :=
  readsVariable typescript name &&
    Template.passes (!·.any Node.isStateCall) (Template.read typescript ("let " ++ name ++ ";"))

/-- Where the calls for state of a statement declare a pair, none is left in what the
    statement becomes. -/
theorem extractCells_quiet (hn : is.Nodup)
    (hd : c.extractCells typescript is = .ok d) (hi : i ∈ is) {s t : Node}
    (hs : c.body[i]? = some s) (ht : d.body[i]? = some t) (hpaired : s.StatePaired)
    (hvalue : ∀ value setter, s.pair? = some (value, setter) →
      readsValue typescript value = true) : t.any Node.isStateCall = false := by
  refine Bool.eq_false_iff.2 fun hany => ?_
  obtain ⟨hnone, hsame, -⟩ | ⟨sd, t', hsd, hdeclaration, hsame, -⟩ := extractCells_body hn hd hi hs
  · cases ht.symm.trans hsame
    obtain ⟨p, hp⟩ := Node.exists_place_of_any hany
    obtain ⟨pair, hpair⟩ := Option.isSome_iff_exists.1 (hpaired p hp).2
    obtain ⟨init, hstate⟩ := StateDeclaration.ofStatement?_of_pair? hpair
    cases hnone.symm.trans hstate
  · cases ht.symm.trans hsame
    obtain ⟨hname, halone⟩ :=
      Bool.and_eq_true_iff.1 (hvalue _ _ (StateDeclaration.pair?_of_ofStatement? hsd))
    obtain ⟨sp, sp', sp'', sp₃, v, rfl, hv⟩ :=
      StateDeclaration.isVariable_declaration hname hdeclaration
    cases hinit : sd.initializer with
    | none =>
      rw [StateDeclaration.declaration, hinit] at hdeclaration
      dsimp only at hdeclaration
      rw [hdeclaration, Template.passes, hany] at halone
      cases halone
    | some e =>
      -- The call stands within the first argument of the one that declares the pair.
      rw [hinit] at hv
      have hv : v = e := hv
      subst hv
      have hargument : v.any Node.isStateCall = true := by
        simpa [Node.any_mk, Node.anyList_eq, Node.isStateCall, Node.hook?] using hany
      obtain ⟨p, hp⟩ := Node.exists_place_of_any hargument
      obtain ⟨m, hm, hcall⟩ := Node.mem_places.1 hp
      obtain ⟨k, a, sp₄, dk, sp₅, sp₆, sp₇, qs, sp₈, qs', note, call, rfl, -, hfirst⟩ :=
        StateDeclaration.ofStatement?_eq_some hsd
      have hplace : 0 :: 2 :: 2 :: p ∈ (Node.mk (.declaration k a) sp₄ [.mk dk sp₅
          [.mk .arrayPattern sp₆ [.mk (.binding sd.value) sp₇ qs, .mk (.binding sd.setter) sp₈ qs'],
            note, call]]).places Node.isStateCall := by
        refine Node.mem_places.2 ⟨m, ?_, hcall⟩
        show call.parts[2]?.bind _ = _
        rw [Node.parts_of_firstArgument? (hfirst.symm.trans hinit)]
        exact hm
      cases (hpaired _ hplace).1

/-- Where all calls for state declare pairs, extracting state goes wrong for nothing but
    a text. -/
theorem templated_extractState (hpaired : ∀ s ∈ c.body, s.StatePaired)
    (hvalues : ∀ s ∈ c.body, ∀ value setter, s.pair? = some (value, setter) →
      readsValue typescript value = true) : Templated (c.extractState typescript) := by
  refine (templated_extractCells List.nodup_range
    fun i _ s hs => hpaired s (List.mem_of_getElem? hs)).bind fun d hd => ?_
  have hfind : Node.findList? Node.isStateCall d.body = none := by
    refine Node.findList?_eq_none.2 fun t ht => Node.find?_eq_none_iff_any.2 ?_
    obtain ⟨i, hi⟩ := List.getElem?_of_mem ht
    have hlt : i < c.body.length := by
      rw [← (extractCells_extractsFrom hd).length]
      exact (List.getElem?_eq_some_iff.1 hi).1
    have hs := List.getElem?_eq_getElem hlt
    exact extractCells_quiet List.nodup_range hd (List.mem_range.2 hlt) hs hi
      (hpaired _ (List.mem_of_getElem? hs)) (hvalues _ (List.mem_of_getElem? hs))
  split
  · next hsome =>
    cases hfind.symm.trans hsome
  · exact (templated_unsetCalls d).bind fun e _ =>
      (templated_propagate e).bind fun _ _ => .ok _

/-- The statement at each piece of state declares the variable of its value. -/
theorem extractState_variable (h : c.extractState typescript = .ok c') {s : Node}
    {value setter : Text} (hs : c.body[i]? = some s) (hpair : s.pair? = some (value, setter))
    (hvalue : readsVariable typescript value = true) :
    ∃ t init, c'.body[i]? = some t ∧ IsVariable value init t := by
  obtain ⟨init, hstate⟩ := StateDeclaration.ofStatement?_of_pair? hpair
  obtain ⟨sd, t, hsd, ht, -, hbody⟩ | ⟨hnone, -⟩ := extractState_body h hs
  · cases hsd.symm.trans hstate
    have hvariable : IsVariable value init t :=
      StateDeclaration.isVariable_declaration (by exact hvalue) ht
    exact ⟨t.assigned c'.setters, init.map (Node.assigned c'.setters), hbody, hvariable.assigned⟩
  · cases hnone.symm.trans hstate

/-- What is accepted as state is the pair form, and only that is refused for its form.

    When state is extracted, and the patterns that become targets are read as they are
    meant and no name is that of a hole, then no call for state is left; the pieces of
    state are the pairs that statements declare, in order; and each is declared by a
    variable that is not made reactive. Where all calls for state declare pairs, it is
    not refused as state in another form. -/
theorem extractState_takes_pairs (hcells : c.cells = []) (hsetters : c.setters = [])
    (hvalues : ∀ s ∈ c.body, ∀ value setter, s.pair? = some (value, setter) →
      readsValue typescript value = true) :
    (∀ d, c.extractState typescript = .ok d →
      ((∀ s ∈ c.body, s.hasHole = false ∧
          ∀ p init, (s.assigned d.setters).declared? = some (p, init) →
            readsTarget typescript p = true ∧ keepsOut Node.isStateCall typescript p = true) →
        ∀ t ∈ d.body, ∀ p n, t.at? p = some n → n.hook? ≠ some .state) ∧
      d.cells.map (fun k => (k.declaration, k.value, k.setter)) =
        ((List.range c.body.length).filterMap fun i =>
          (c.body[i]?.bind Node.pair?).map fun p => (i, p)) ∧
      (d.cells.map (·.declaration)).Pairwise (· < ·) ∧
      ∀ k ∈ d.cells, ∃ t init, d.body[k.declaration]? = some t ∧ IsVariable k.value init t) ∧
    ((∀ s ∈ c.body, s.StatePaired) → ∀ e, c.extractState typescript = .error e →
      e.cause.rule.code ≠ "J2S-UNSUPPORTED-002") := by
  refine ⟨fun d hd => ?_, fun hpaired e he hcode => ?_⟩
  · obtain ⟨b, -, -, hb, hfind, -⟩ := extractState_eq_ok hd
    have hpairs := extractCells_pairs List.nodup_range hb
    rw [← extractState_cells hd hb, hcells, List.map_nil, List.nil_append] at hpairs
    refine ⟨fun hread t ht p n hn hstate => ?_, hpairs, ?_, fun k hk => ?_⟩
    · have hquiet := any_extractState Node.reactiveTest_isStateCall Node.any_isStateCall_assigned
        hsetters hd hb
        (fun s hs => Node.find?_eq_none_iff_any.1 (Node.findList?_eq_none.1 hfind s hs))
        (fun s hs => (hread s hs).1) (fun s hs => (hread s hs).2) t ht
      have hany : n.any Node.isStateCall = true := by
        obtain ⟨k, sp, ps⟩ := n
        rw [Node.any_mk, Node.isStateCall, decide_eq_true hstate]
        rfl
      rw [Node.any_of_at? hn hany] at hquiet
      cases hquiet
    · -- Statements are looked at in order.
      have hdeclarations : d.cells.map (·.declaration) =
          (d.cells.map fun k => (k.declaration, k.value, k.setter)).map Prod.fst := by
        rw [List.map_map]
        rfl
      rw [hdeclarations, hpairs, List.map_filterMap]
      refine List.Pairwise.filterMap _ (fun i j hij a ha b hb => ?_) List.pairwise_lt_range
      obtain ⟨x, hx, rfl⟩ := Option.map_eq_some_iff.1 ha
      obtain ⟨y, hy, rfl⟩ := Option.map_eq_some_iff.1 hb
      obtain ⟨-, -, rfl⟩ := Option.map_eq_some_iff.1 hx
      obtain ⟨-, -, rfl⟩ := Option.map_eq_some_iff.1 hy
      exact hij
    · have hk : (k.declaration, k.value, k.setter) ∈ _ := hpairs ▸ List.mem_map_of_mem hk
      obtain ⟨i, -, hi⟩ := List.mem_filterMap.1 hk
      obtain ⟨pair, hbody, heq⟩ := Option.map_eq_some_iff.1 hi
      obtain ⟨s, hs, hpair⟩ := Option.bind_eq_some_iff.1 hbody
      cases heq
      exact extractState_variable hd hs hpair
        (Bool.and_eq_true_iff.1 (hvalues s (List.mem_of_getElem? hs) _ _ hpair)).1
  · obtain ⟨text, htext⟩ := templated_extractState hpaired hvalues e he
    have hne : Rule.template.code ≠ ("J2S-UNSUPPORTED-002" : Text) := by decide
    rw [htext] at hcode
    exact hne hcode

/-- A component with two pieces of state, and between them a list that is taken apart. -/
def pairsSource : Text :=
  "export default () => \x7b const [n, setN] = useState(0); const [, ...rest] = n;
    const [m, setM] = React.useState(); return <p/>; \x7d;"

theorem pairs_taken : ∃ b d, compileThrough {} [.props] pairsSource = .ok b ∧
    b.extractState false = .ok d ∧ b.cells = [] ∧ b.setters = [] ∧
    (∀ s ∈ b.body, ∀ value setter, s.pair? = some (value, setter) → readsValue false value = true) ∧
    (∀ s ∈ b.body, s.hasHole = false ∧
      ∀ p init, (s.assigned d.setters).declared? = some (p, init) →
        readsTarget false p = true ∧ keepsOut Node.isStateCall false p = true) ∧
    (∀ s ∈ b.body, s.StatePaired) ∧
    (∀ t ∈ d.body, ∀ p n, t.at? p = some n → n.hook? ≠ some .state) ∧
    (d.cells.map fun k => (k.declaration, k.value, k.setter)) =
      [(0, ("n" : Text), ("setN" : Text)), (2, ("m" : Text), ("setM" : Text))] ∧
    (∀ k ∈ d.cells, ∃ t init, d.body[k.declaration]? = some t ∧ IsVariable k.value init t) ∧
    ∀ e, b.extractState false = .error e → e.cause.rule.code ≠ "J2S-UNSUPPORTED-002" := by
  have hsource : ((compileThrough {} [.props] pairsSource).toOption.bind fun b =>
      (b.extractState false).toOption.map fun d =>
        (b.cells.isEmpty && b.setters.isEmpty &&
          (b.body.all fun s => s.pair?.all fun p => readsValue false p.1) &&
          (b.body.all fun s => !s.hasHole && (s.assigned d.setters).declared?.all fun q =>
            readsTarget false q.1 && keepsOut Node.isStateCall false q.1) &&
          (b.body.all fun s => (s.places Node.isStateCall).all fun p =>
            p == [0, 2] && s.pair?.isSome),
          d.cells.map fun k => (k.declaration, k.value, k.setter))) =
      some (true, [(0, ("n" : Text), ("setN" : Text)), (2, ("m" : Text), ("setM" : Text))]) := by
    rw [(by apply String.toList_ofList : pairsSource = _)]
    decide +kernel
  obtain ⟨b, hb, hsource⟩ := of_toOption_bind hsource
  obtain ⟨d, hd, hsource⟩ := of_toOption_map hsource
  simp only [Prod.mk.injEq, List.isEmpty_iff, Bool.and_eq_true, List.all_eq_true,
    Bool.not_eq_true', beq_iff_eq] at hsource
  obtain ⟨⟨⟨⟨⟨hcells, hsetters⟩, hpairs⟩, hread⟩, hplaces⟩, hfound⟩ := hsource
  have hvalues : ∀ s ∈ b.body, ∀ value setter, s.pair? = some (value, setter) →
      readsValue false value = true := by
    intro s hs value setter hpair
    have hvalue := hpairs s hs
    rw [hpair] at hvalue
    exact hvalue
  have hread : ∀ s ∈ b.body, s.hasHole = false ∧
      ∀ p init, (s.assigned d.setters).declared? = some (p, init) →
        readsTarget false p = true ∧ keepsOut Node.isStateCall false p = true := by
    refine fun s hs => ⟨(hread s hs).1, fun p init hp => ?_⟩
    have htarget := (hread s hs).2
    rw [hp] at htarget
    exact Bool.and_eq_true_iff.1 htarget
  obtain ⟨hok, herror⟩ := extractState_takes_pairs hcells hsetters hvalues
  obtain ⟨hquiet, -, -, hvariables⟩ := hok d hd
  exact ⟨b, d, hb, hd, hcells, hsetters, hvalues, hread, hplaces,
    hquiet hread, hfound, hvariables, herror hplaces⟩

/-- A default that uses the name of the hole is filled with what the pattern takes apart,
    and so a call for state comes up. -/
theorem hole_calls_state :
    ((compileThrough {} [.props, .state] "export default () => \x7b const [n, setN] = useState(0);
        const \x7b a = __hole0__(n) \x7d = useState; return <p>\x7ba\x7d</p>; \x7d;").toOption.map fun c =>
      c.body.map (·.any Node.isStateCall)) = some [false, true, false] := by
  conv in compileThrough _ _ _ =>
    arg 3
    apply String.toList_ofList
  decide +kernel

end Component

end Unhook
