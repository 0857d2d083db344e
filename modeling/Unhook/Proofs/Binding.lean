import Unhook.Proofs.Passes

/-!
# The body, statement by statement

Binding props puts aliases before the statements of a component and makes some
of these reactive; extracting state turns some into variables, rewrites the
calls of setters in all of them, and makes more reactive. Neither moves a
statement, so it can be said of each by itself what becomes of it.

* `Component.settle_closed`: a statement that is settled or exempt stays;
* `Component.extractCells_body`: which statements become variables;
* `Component.bindProps_bound`, `Component.extractState_body`: what the two steps
  make of each statement.
-/

namespace Unhook

namespace Component

variable {typescript : Bool} {c c' d : Component} {is : List Nat} {i : Nat} {s : Node} {x : Text}

/-- The component of a module begins with nothing settled and with no state. -/
theorem ofModule_fresh {length : Nat} {module : List Node} (h : ofModule length module = .ok c) :
    (c.settled = [] ∧ c.exempt = [] ∧ c.tracked = []) ∧ c.setters = [] ∧ c.synthesized = [] := by
  obtain ⟨e, -, -, rfl, -⟩ := exists_export_of_ofModule h
  exact ⟨⟨rfl, rfl, rfl⟩, rfl, rfl⟩

/-! ### Statements that stay -/

/-- A component `d` with as many statements as `c`, of which the same are exempt,
    and with the same state. -/
structure SameState (c d : Component) : Prop where
  length : d.body.length = c.body.length
  exempt : d.exempt = c.exempt
  setters : d.setters = c.setters
  synthesized : d.synthesized = c.synthesized

theorem SameState.refl (c : Component) : SameState c c := ⟨rfl, rfl, rfl, rfl⟩

theorem SameState.trans {c d e : Component} (h : SameState c d) (h' : SameState d e) :
    SameState c e :=
  ⟨h'.length.trans h.length, h'.exempt.trans h.exempt, h'.setters.trans h.setters,
    h'.synthesized.trans h.synthesized⟩

theorem settle_sameState {bound : Bool} (h : c.settle typescript i = .ok (c', bound)) :
    SameState c c' := by
  rcases settle_eq_ok h with ⟨rfl, -⟩ | ⟨-, -, -, ⟨-, -, rfl⟩ | ⟨-, -, -, -, rfl⟩⟩
  · exact .refl c'
  · exact ⟨rfl, rfl, rfl, rfl⟩
  · exact ⟨List.length_set, rfl, rfl, rfl⟩

theorem propagate_sameState {n : Nat} (h : c.propagate typescript = .ok (c', n)) : SameState c c' :=
  propagate_keeps (P := SameState c) (fun h hc => hc.trans (settle_sameState h)) h (.refl c)

theorem settleAll_sameState (h : c.settleAll typescript is = .ok c') : SameState c c' :=
  settleAll_keeps (P := SameState c) (fun h hc => hc.trans (settle_sameState h)) h (.refl c)

theorem isOpen_append {i j : Nat} {e : Component} (hsettled : e.settled = c.settled ++ [i])
    (hexempt : e.exempt = c.exempt) : e.isOpen j = (c.isOpen j && j ≠ i) := by
  simp only [isOpen, hsettled, hexempt, List.contains_eq_mem, List.mem_append, List.mem_singleton]
  by_cases hij : j = i <;> simp [hij]

/-- A statement that is settled or exempt is never touched again. -/
theorem settle_closed {i j : Nat} {bound : Bool} (h : c.settle typescript i = .ok (c', bound))
    (hj : c.isOpen j = false) : c'.isOpen j = false ∧ c'.body[j]? = c.body[j]? := by
  rcases settle_eq_ok h with ⟨rfl, -⟩ | ⟨s, -, hi, hcases⟩
  · exact ⟨hj, rfl⟩
  · have hij : i ≠ j := fun hij => by rw [hij, hj] at hi; cases hi
    have hclosed {e : Component} (hsettled : e.settled = c.settled ++ [i])
        (hexempt : e.exempt = c.exempt) : e.isOpen j = false := by
      rw [isOpen_append hsettled hexempt, hj, Bool.false_and]
    rcases hcases with ⟨-, -, rfl⟩ | ⟨r, names, -, -, rfl⟩
    · exact ⟨hclosed rfl rfl, rfl⟩
    · exact ⟨hclosed rfl rfl, List.getElem?_set_ne hij⟩

theorem propagate_closed {j n : Nat} (h : c.propagate typescript = .ok (c', n))
    (hj : c.isOpen j = false) : c'.isOpen j = false ∧ c'.body[j]? = c.body[j]? :=
  propagate_keeps (P := fun d => d.isOpen j = false ∧ d.body[j]? = c.body[j]?)
    (fun h hc => (settle_closed h hc.1).imp_right (·.trans hc.2)) h ⟨hj, rfl⟩

theorem settleAll_closed {j : Nat} (h : c.settleAll typescript is = .ok c')
    (hj : c.isOpen j = false) : c'.isOpen j = false ∧ c'.body[j]? = c.body[j]? :=
  settleAll_keeps (P := fun d => d.isOpen j = false ∧ d.body[j]? = c.body[j]?)
    (fun h hc => (settle_closed h hc.1).imp_right (·.trans hc.2)) h ⟨hj, rfl⟩

/-! ### State -/

theorem mem_foldl_insertNew {names ts : List Text} :
    x ∈ names.foldl (fun ts n => insertNew n ts) ts ↔ x ∈ ts ∨ x ∈ names := by
  induction names generalizing ts with
  | nil => simp
  | cons n names ih => rw [List.foldl_cons, ih, mem_insertNew, List.mem_cons, or_assoc, or_left_comm]

theorem mem_track {names : List Text} :
    x ∈ (c.track names).tracked ↔ x ∈ c.tracked ∨ x ∈ names := mem_foldl_insertNew

/-- What looking for state in the statements `is` does to a component `c`. -/
structure ExtractsFrom (is : List Nat) (c d : Component) : Prop where
  length : d.body.length = c.body.length
  settled : d.settled = c.settled
  synthesized : d.synthesized = c.synthesized
  exempt : ∀ i, i ∈ d.exempt → i ∈ c.exempt ∨ i ∈ is
  exempt_subset : c.exempt ⊆ d.exempt
  setters : c.setters ⊆ d.setters
  tracked : c.tracked ⊆ d.tracked

theorem extractCell_extractsFrom (h : c.extractCell typescript i = .ok d) :
    ExtractsFrom [i] c d := by
  obtain ⟨rfl, -⟩ | ⟨-, sd, t, -, -, -, rfl⟩ := extractCell_eq_ok h
  · exact ⟨rfl, rfl, rfl, fun _ => .inl, fun _ => id, fun _ => id, fun _ => id⟩
  · exact ⟨List.length_set, rfl, rfl, fun j hj => List.mem_append.1 hj,
      List.subset_append_left _ _, List.subset_cons_self _ _, fun x hx => mem_track.2 (.inl hx)⟩

theorem extractCells_extractsFrom (h : c.extractCells typescript is = .ok d) :
    ExtractsFrom is c d := by
  induction is generalizing c with
  | nil =>
    cases h
    exact ⟨rfl, rfl, rfl, fun _ => .inl, fun _ => id, fun _ => id, fun _ => id⟩
  | cons i is ih =>
    obtain ⟨e, he, h⟩ := of_bind_eq_ok h
    have he := extractCell_extractsFrom he
    have hd := ih h
    refine ⟨hd.length.trans he.length, hd.settled.trans he.settled,
      hd.synthesized.trans he.synthesized, fun j hj => ?_,
      List.Subset.trans he.exempt_subset hd.exempt_subset,
      List.Subset.trans he.setters hd.setters, List.Subset.trans he.tracked hd.tracked⟩
    rcases hd.exempt j hj with hj | hj
    · exact (he.exempt j hj).imp_right fun hj => List.mem_cons.2 (.inl (List.mem_singleton.1 hj))
    · exact .inr (List.mem_cons_of_mem _ hj)

/-- Each statement that is looked at declares no state and stays, or it becomes the
    variable of its state. -/
theorem extractCells_body (hn : is.Nodup) (h : c.extractCells typescript is = .ok d) (hi : i ∈ is)
    (hs : c.body[i]? = some s) :
    StateDeclaration.ofStatement? s = .ok none ∧ d.body[i]? = some s ∧
        (i ∈ d.exempt → i ∈ c.exempt) ∨
    ∃ sd t, StateDeclaration.ofStatement? s = .ok (some sd) ∧ sd.declaration typescript = .ok t ∧
      d.body[i]? = some t ∧ i ∈ d.exempt ∧ (sd.setter, sd.value) ∈ d.setters ∧
      sd.value ∈ d.tracked := by
  induction is generalizing c with
  | nil => cases hi
  | cons j is ih =>
    rw [List.nodup_cons] at hn
    obtain ⟨e, he, htail⟩ := of_bind_eq_ok h
    have hd := extractCells_extractsFrom htail
    by_cases hij : i = j
    · subst hij
      -- The statements that are looked at later are other ones.
      rw [extractCells_frame htail hn.1]
      obtain ⟨rfl, hnone⟩ | ⟨s', sd, t, hs', hsd, ht, rfl⟩ := extractCell_eq_ok he
      · exact .inl ⟨hnone s hs, hs, fun hx => (hd.exempt i hx).resolve_right hn.1⟩
      · cases hs.symm.trans hs'
        refine .inr ⟨sd, t, hsd, ht, List.getElem?_set_self (List.getElem?_eq_some_iff.1 hs).1,
          hd.exempt_subset ?_, hd.setters ?_, hd.tracked ?_⟩
        · exact List.mem_append_right _ List.mem_cons_self
        · exact List.mem_cons_self
        · exact mem_track.2 (.inr List.mem_cons_self)
    · have hi : i ∈ is := (List.mem_cons.1 hi).resolve_left hij
      have hs' : e.body[i]? = some s := (extractCell_frame he (Ne.symm hij)).trans hs
      refine (ih hn.2 htail hi hs').imp_left fun hkept => ?_
      obtain ⟨hnone, hbody, hx⟩ := hkept
      refine ⟨hnone, hbody, fun hx' => ?_⟩
      exact ((extractCell_extractsFrom he).exempt i (hx hx')).resolve_right
        fun hmem => hij (List.mem_singleton.1 hmem)

/-- The setters that are known afterwards were known before, or a statement declares
    them. -/
theorem extractCells_setters (hn : is.Nodup)
    (h : c.extractCells typescript is = .ok d) {p : Text × Text} (hp : p ∈ d.setters) :
    p ∈ c.setters ∨ ∃ i ∈ is, ∃ s, c.body[i]? = some s ∧
      ∃ sd, StateDeclaration.ofStatement? s = .ok (some sd) ∧ p = (sd.setter, sd.value) := by
  induction is generalizing c with
  | nil =>
    cases h
    exact .inl hp
  | cons i is ih =>
    rw [List.nodup_cons] at hn
    obtain ⟨e, he, htail⟩ := of_bind_eq_ok h
    obtain hp | ⟨j, hj, s, hs, hsd⟩ := ih hn.2 htail
    · obtain ⟨rfl, -⟩ | ⟨s, sd, t, hs, hsd, -, rfl⟩ := extractCell_eq_ok he
      · exact .inl hp
      · rcases List.mem_cons.1 hp with rfl | hp
        · exact .inr ⟨i, List.mem_cons_self, s, hs, sd, hsd, rfl⟩
        · exact .inl hp
    · have hij : i ≠ j := fun hij => hn.1 (hij ▸ hj)
      exact .inr ⟨j, List.mem_cons_of_mem _ hj, s, (extractCell_frame he hij).symm.trans hs, hsd⟩

/-- The names that are followed once state is found are those that were followed before
    and the values of the state. -/
theorem extractCells_tracked (h : c.extractCells typescript is = .ok d)
    (hc : ∀ p ∈ c.setters, p.2 ∈ c.tracked) :
    x ∈ d.tracked ↔ x ∈ c.tracked ∨ ∃ p ∈ d.setters, x = p.2 := by
  induction is generalizing c with
  | nil =>
    cases h
    refine ⟨.inl, ?_⟩
    rintro (hx | ⟨p, hp, rfl⟩)
    · exact hx
    · exact hc p hp
  | cons i is ih =>
    obtain ⟨e, he, htail⟩ := of_bind_eq_ok h
    have hd := extractCells_extractsFrom htail
    obtain ⟨rfl, -⟩ | ⟨s, sd, t, -, -, -, rfl⟩ := extractCell_eq_ok he
    · exact ih htail hc
    · rw [ih htail, mem_track, List.mem_singleton, or_assoc]
      · refine or_congr_right ⟨fun h => ?_, .inr⟩
        rcases h with rfl | h
        · exact ⟨_, hd.setters List.mem_cons_self, rfl⟩
        · exact h
      · intro p hp
        rcases List.mem_cons.1 hp with rfl | hp
        · exact mem_track.2 (.inr List.mem_cons_self)
        · exact mem_track.2 (.inl (hc p hp))

/-- A statement that declares no state has no call for state either. -/
theorem extractState_find? (h : c.extractState typescript = .ok c')
    (hs : c.body[i]? = some s) (hnone : StateDeclaration.ofStatement? s = .ok none) :
    s.find? (fun n => n.hook? = some .state) = none := by
  obtain ⟨d, e, n, hd, hfind, -, -⟩ := extractState_eq_ok h
  have hi : i ∈ List.range c.body.length := List.mem_range.2 (List.getElem?_eq_some_iff.1 hs).1
  obtain ⟨-, hbody, -⟩ | ⟨sd, t, hsd, -⟩ := extractCells_body List.nodup_range hd hi hs
  · exact Node.findList?_eq_none.1 hfind s (List.mem_of_getElem? hbody)
  · rw [hnone] at hsd
    cases hsd

/-- Replacing calls of setters touches nothing that is settled or exempt but for the
    calls. -/
theorem unsetCalls_closed {j : Nat} (h : c.unsetCalls typescript = .ok c')
    (hj : c.isOpen j = false) : c'.isOpen j = false ∧
      c'.body[j]? = (c.body.map (Node.assigned c.setters))[j]? := by
  obtain ⟨is, ss, -, h⟩ := unsetCalls_eq_ok h
  exact settleAll_closed h hj

theorem unsetCalls_sameState (h : c.unsetCalls typescript = .ok c') :
    c'.body.length = c.body.length ∧ c'.exempt = c.exempt ∧ c'.setters = c.setters := by
  obtain ⟨is, ss, -, h⟩ := unsetCalls_eq_ok h
  have hstate := settleAll_sameState h
  exact ⟨hstate.length.trans (List.length_map _), hstate.exempt, hstate.setters⟩

theorem extractState_length (h : c.extractState typescript = .ok c') :
    c'.body.length = c.body.length := by
  obtain ⟨d, e, n, hd, -, he, hc'⟩ := extractState_eq_ok h
  rw [(propagate_sameState hc').length, (unsetCalls_sameState he).1,
    (extractCells_extractsFrom hd).length]

/-- What extracting state makes of a statement: the variable of its state, with
    calls of setters rewritten; or itself, with calls of setters rewritten and perhaps
    made reactive. A statement that is settled before is not made reactive. -/
theorem extractState_body (h : c.extractState typescript = .ok c') (hs : c.body[i]? = some s) :
    (∃ sd t, StateDeclaration.ofStatement? s = .ok (some sd) ∧ sd.declaration typescript = .ok t ∧
      (sd.setter, sd.value) ∈ c'.setters ∧ c'.body[i]? = some (t.assigned c'.setters)) ∨
    StateDeclaration.ofStatement? s = .ok none ∧ (c'.body[i]? = some (s.assigned c'.setters) ∨
      c.isOpen i = true ∧ ∃ r names,
        reactiveForm typescript (s.assigned c'.setters) = .ok (some (r, names)) ∧
        c'.body[i]? = some r) := by
  obtain ⟨d, e, n, hd, -, he, hc'⟩ := extractState_eq_ok h
  have hsetters : c'.setters = d.setters :=
    (propagate_sameState hc').setters.trans (unsetCalls_sameState he).2.2
  have hi : i ∈ List.range c.body.length := List.mem_range.2 (List.getElem?_eq_some_iff.1 hs).1
  -- What is closed once state is declared stays so; anything else may react.
  have hclosed {t : Node} (ht : d.body[i]? = some t) (hopen : d.isOpen i = false) :
      c'.body[i]? = some (t.assigned c'.setters) := by
    obtain ⟨hopen, hbody⟩ := unsetCalls_closed he hopen
    rw [(propagate_closed hc' hopen).2, hbody, List.getElem?_map, ht, hsetters]
    rfl
  obtain ⟨hnone, hbody, hexempt⟩ | ⟨sd, t, hsd, ht, hbody, hexempt, hsetter, -⟩ :=
    extractCells_body List.nodup_range hd hi hs
  · refine .inr ⟨hnone, ?_⟩
    by_cases hopen : c.isOpen i = true
    · have hreacts := propagate_reacts hc' (unsetCalls_reacts he) i (s.assigned d.setters)
        (by rw [List.getElem?_map, hbody]; rfl)
      rw [hsetters]
      exact hreacts.imp_right fun h => ⟨hopen, h.2⟩
    · refine .inl (hclosed hbody ?_)
      have hd := extractCells_extractsFrom hd
      simp only [isOpen, hd.settled] at hopen ⊢
      by_cases hx : i ∈ c.exempt
      · simp [hd.exempt_subset hx]
      · simp_all
  · refine .inl ⟨sd, t, hsd, ht, hsetters ▸ hsetter, hclosed hbody ?_⟩
    simp [isOpen, hexempt]

/-! ### Props -/

/-- The template of the alias for a part of the parameter's pattern, if it needs
    one. -/
def aliasText? : Node → Option Text
  | .mk (.patternProperty _ _) _ [k, value] =>
    k.keyName?.bind fun key => aliasTemplate? key (splitDefault value).1
  | .mk .rest _ ps => (Node.namesList ps).head?.map fun n => "$: " ++ n ++ " = " ++ restProps ++ ";"
  | _ => none

/-- The templates of the aliases, in the order of the parameter's pattern. -/
def aliasTexts (c : Component) : List Text :=
  match c.params.head?.map Node.pattern with
  | some (.mk .objectPattern _ ps) => ps.filterMap aliasText?
  | _ => []

/-- The names that a part of the parameter's pattern gives to what it takes. -/
def takenNames : Node → List Text
  | .mk (.patternProperty _ _) _ [k, value] =>
    match k.keyName? with
    | none => []
    | some key => key :: (splitDefault value).1.names
  | .mk .rest _ ps => (Node.namesList ps).head?.toList
  | _ => []

/-- The names by which a component has its props. -/
def propNames (c : Component) : List Text :=
  match c.params.head?.map Node.pattern with
  | some (.mk .objectPattern _ ps) => ps.flatMap takenNames
  | some (.mk (.binding _) _ _) => [propsObject]
  | _ => []

/-- A statement in which a parameter that takes all props as one object has the name
    of that object. -/
def renamed (c : Component) (s : Node) : Node :=
  match c.params.head?.map Node.pattern with
  | some (.mk (.binding n) _ _) => s.rename n propsObject
  | _ => s

/-- What finding props leaves as it is. -/
structure SameBody (c d : Component) : Prop where
  body : d.body = c.body
  settled : d.settled = c.settled
  exempt : d.exempt = c.exempt
  setters : d.setters = c.setters
  synthesized : d.synthesized = c.synthesized

theorem SameBody.refl (c : Component) : SameBody c c := ⟨rfl, rfl, rfl, rfl, rfl⟩

theorem SameBody.trans {c d e : Component} (h : SameBody c d) (h' : SameBody d e) : SameBody c e :=
  ⟨h'.body.trans h.body, h'.settled.trans h.settled, h'.exempt.trans h.exempt,
    h'.setters.trans h.setters, h'.synthesized.trans h.synthesized⟩

theorem addField_sameBody (c : Component) (f : Field) : SameBody c (c.addField f) := by
  unfold addField
  split <;> exact ⟨rfl, rfl, rfl, rfl, rfl⟩

@[simp] theorem addField_tracked (c : Component) (f : Field) :
    (c.addField f).tracked = c.tracked := by
  unfold addField
  split <;> rfl

theorem names_of_aliasTemplate? {key : Text} {pattern : Node}
    (h : aliasTemplate? key pattern = none) : pattern.names = [key] := by
  unfold aliasTemplate? at h
  split at h
  · next n hn =>
    split at h
    · next heq =>
      subst heq
      unfold Node.binding? at hn
      split at hn
      · cases hn
        rfl
      · cases hn
    · cases h
  · cases h

theorem bindProperty_eq_ok {p : Node} {a : Option Node}
    (h : c.bindProperty typescript p = .ok (c', a)) :
    SameBody c c' ∧ (aliasText? p).toList.map (Template.read typescript) = a.toList.map .ok ∧
      ∀ x, x ∈ c'.tracked ↔ x ∈ c.tracked ∨ x ∈ takenNames p := by
  unfold bindProperty at h
  split at h
  · next k value =>
    split at h
    · next hkey =>
      cases h
      exact ⟨.refl c, by rw [aliasText?, hkey]; rfl, fun x => by simp [takenNames, hkey]⟩
    · next key hkey =>
      have hfield := addField_sameBody c ⟨key, (splitDefault value).2⟩
      have hbody (names : List Text) : SameBody c
          (((c.addField ⟨key, (splitDefault value).2⟩).track [key]).track names) :=
        ⟨hfield.body, hfield.settled, hfield.exempt, hfield.setters, hfield.synthesized⟩
      rw [aliasText?, takenNames, hkey]
      dsimp only [Option.bind_some] at h ⊢
      split at h
      · next htext =>
        cases h
        refine ⟨hbody [], by rw [htext]; rfl, fun x => ?_⟩
        rw [mem_track, addField_tracked, names_of_aliasTemplate? htext]
        simp
      · next t htext =>
        obtain ⟨a, ha, h⟩ := of_bind_eq_ok h
        cases h
        refine ⟨hbody _, by rw [htext]; exact congrArg (· :: []) ha, fun x => ?_⟩
        rw [mem_track, mem_track, addField_tracked, or_assoc, List.mem_singleton, List.mem_cons]
  · next ps =>
    split at h
    · next hnames =>
      cases h
      exact ⟨.refl c, by rw [aliasText?, hnames]; rfl, fun x => by simp [takenNames, hnames]⟩
    · next n hnames =>
      obtain ⟨a, ha, h⟩ := of_bind_eq_ok h
      cases h
      refine ⟨⟨rfl, rfl, rfl, rfl, rfl⟩, by rw [aliasText?, hnames]; exact congrArg (· :: []) ha,
        fun x => ?_⟩
      rw [mem_track, takenNames, hnames]
      rfl
  · next hproperty hrest =>
    have hnone : aliasText? p = none ∧ takenNames p = [] := by
      refine ⟨?_, ?_⟩
      · unfold aliasText?
        split
        · exact (hproperty _ _ _ _ _ rfl).elim
        · exact (hrest _ _ rfl).elim
        · rfl
      · unfold takenNames
        split
        · exact (hproperty _ _ _ _ _ rfl).elim
        · exact (hrest _ _ rfl).elim
        · rfl
    cases h
    exact ⟨.refl _, by rw [hnone.1]; rfl, fun x => by simp [hnone.2]⟩

theorem bindProperties_eq_ok {ps as : List Node}
    (h : bindProperties typescript ps c = .ok (c', as)) :
    SameBody c c' ∧ (ps.filterMap aliasText?).map (Template.read typescript) = as.map .ok ∧
      ∀ x, x ∈ c'.tracked ↔ x ∈ c.tracked ∨ x ∈ ps.flatMap takenNames := by
  induction ps generalizing c as with
  | nil =>
    cases h
    exact ⟨.refl _, rfl, by simp⟩
  | cons p ps ih =>
    obtain ⟨⟨d, a⟩, hd, h⟩ := of_bind_eq_ok h
    obtain ⟨⟨e, as'⟩, he, h⟩ := of_bind_eq_ok h
    cases h
    obtain ⟨hbody, ha, htracked⟩ := bindProperty_eq_ok hd
    obtain ⟨hbody', has, htracked'⟩ := ih he
    refine ⟨hbody.trans hbody', ?_, fun x => ?_⟩
    · rw [List.map_append, ← ha, ← has, ← List.map_append]
      cases hp : aliasText? p <;> simp [hp]
    · rw [htracked', htracked, List.flatMap_cons, List.mem_append, or_assoc]

theorem bindObject_body (n : Text) (c : Component) :
    (c.bindObject n).body = c.body.map (Node.rename n propsObject) ∧
      SameBody c { c.bindObject n with body := c.body } ∧
      ∀ x, x ∈ (c.bindObject n).tracked ↔ x ∈ c.tracked ∨ x ∈ [propsObject] := by
  have hfold (names : List Text) (c : Component) :
      SameBody c (names.foldl (fun c n => c.addField ⟨n, none⟩) c) ∧
        (names.foldl (fun c n => c.addField ⟨n, none⟩) c).tracked = c.tracked := by
    induction names generalizing c with
    | nil => exact ⟨.refl c, rfl⟩
    | cons n names ih =>
      exact ⟨(addField_sameBody c _).trans (ih _).1, (ih _).2.trans (addField_tracked c _)⟩
  have hrename (ns : List Node) : Node.renameList n propsObject ns =
      ns.map (Node.rename n propsObject) := by
    induction ns with
    | nil => rfl
    | cons m ns ih => rw [Node.renameList, ih, List.map_cons]
  obtain ⟨h, htracked⟩ := hfold (Node.fieldsReadList propsObject (Node.renameList n propsObject c.body))
    { c with body := Node.renameList n propsObject c.body }
  refine ⟨h.body.trans (hrename c.body),
    ⟨rfl, h.settled, h.exempt, h.setters, h.synthesized⟩, fun x => ?_⟩
  rw [bindObject, mem_track, htracked]

/-- A component whose body is that of `c` with aliases before it, and with its
    parameter renamed. -/
structure Aliased (typescript : Bool) (aliases : List Node) (c d : Component) : Prop where
  texts : c.aliasTexts.map (Template.read typescript) = aliases.map .ok
  body : d.body = aliases ++ c.body.map c.renamed
  settled : aliases = [] ∧ d.settled = c.settled ∨ d.settled = List.range aliases.length
  exempt : d.exempt = c.exempt
  setters : d.setters = c.setters
  synthesized : d.synthesized = c.synthesized
  tracked : ∀ x, x ∈ d.tracked ↔ x ∈ c.tracked ∨ x ∈ c.propNames

/-- Binding props puts aliases before the statements and renames the parameter in
    these; then it makes statements reactive. -/
theorem bindProps_eq_ok (h : c.bindProps typescript = .ok c') :
    ∃ d aliases n, Aliased typescript aliases c d ∧ d.propagate typescript = .ok (c', n) := by
  have hlast (d : Component) (aliases : List Node)
      (h : (d.propagate typescript >>= fun p => pure p.1) = .ok c')
      (hd : Aliased typescript aliases c d) :
      ∃ d aliases n, Aliased typescript aliases c d ∧ d.propagate typescript = .ok (c', n) := by
    obtain ⟨⟨e, n⟩, he, h⟩ := of_bind_eq_ok h
    cases h
    exact ⟨d, aliases, n, hd, he⟩
  have hsame (hnone : ∀ n s ps, c.params.head?.map Node.pattern ≠ some (.mk (.binding n) s ps)) :
      c.body.map c.renamed = c.body := by
    refine (List.map_congr_left fun s _ => ?_).trans (List.map_id' _)
    unfold renamed
    split
    · next hps => exact (hnone _ _ _ hps).elim
    · rfl
  unfold bindProps at h
  dsimp only at h
  split at h
  · next sp ps hps =>
    obtain ⟨d, hd, h⟩ := of_bind_eq_ok h
    obtain ⟨⟨e, as⟩, he, hd⟩ := of_bind_eq_ok hd
    cases hd
    obtain ⟨hbody, has, htracked⟩ := bindProperties_eq_ok he
    refine hlast _ as h ⟨by rw [aliasTexts, hps]; exact has, ?_, .inr rfl, hbody.exempt,
      hbody.setters, hbody.synthesized, by rw [propNames, hps]; exact htracked⟩
    rw [hsame fun n s ps h => by rw [hps] at h; cases h]
    exact congrArg (as ++ ·) hbody.body
  · next x sp ps hps =>
    obtain ⟨hbody, hother, htracked⟩ := bindObject_body x { c with form := formOf c.params }
    refine hlast _ [] h ⟨by rw [aliasTexts, hps]; rfl, hbody.trans ?_, .inl ⟨rfl, hother.settled⟩,
      hother.exempt, hother.setters, hother.synthesized, by rw [propNames, hps]; exact htracked⟩
    refine List.map_congr_left fun s _ => ?_
    rw [renamed, hps]
  · next hpattern hname =>
    refine hlast { c with form := formOf c.params } [] h
      ⟨?_, (hsame hname).symm, .inl ⟨rfl, rfl⟩, rfl, rfl, rfl, ?_⟩
    · unfold aliasTexts
      split
      · next hps => exact (hpattern _ _ hps).elim
      · rfl
    · unfold propNames
      split
      · next hps => exact (hpattern _ _ hps).elim
      · next hps => exact (hname _ _ _ hps).elim
      · simp

/-- What binding props makes of the body: the aliases come first, and are settled;
    then every statement, with the parameter renamed and perhaps made reactive. -/
structure Bound (typescript : Bool) (aliases : List Node) (c c' : Component) : Prop where
  texts : c.aliasTexts.map (Template.read typescript) = aliases.map .ok
  length : c'.body.length = aliases.length + c.body.length
  head : ∀ i a, aliases[i]? = some a → c'.body[i]? = some a ∧ c'.isOpen i = false
  statements : ∀ i s, c.body[i]? = some s →
    c'.body[aliases.length + i]? = some (c.renamed s) ∨
      aliases.length + i ∈ c'.settled ∧ ∃ r names,
        reactiveForm typescript (c.renamed s) = .ok (some (r, names)) ∧
        c'.body[aliases.length + i]? = some r
  exempt : c'.exempt = c.exempt
  setters : c'.setters = c.setters
  synthesized : c'.synthesized = c.synthesized

theorem Aliased.bound {aliases : List Node} {n : Nat} (hd : Aliased typescript aliases c d)
    (hc' : d.propagate typescript = .ok (c', n)) : Bound typescript aliases c c' := by
  have hstate := propagate_sameState hc'
  refine ⟨hd.texts, ?_, fun i a ha => ?_, fun i s hs => ?_, hstate.exempt.trans hd.exempt,
    hstate.setters.trans hd.setters, hstate.synthesized.trans hd.synthesized⟩
  · rw [hstate.length, hd.body, List.length_append, List.length_map]
  · have hi := (List.getElem?_eq_some_iff.1 ha).1
    have hsettled : i ∈ d.settled := by
      rcases hd.settled with ⟨rfl, -⟩ | hd
      · cases ha
      · rw [hd]
        exact List.mem_range.2 hi
    obtain ⟨hopen, hbody⟩ := propagate_closed hc' (j := i) (by simp [isOpen, hsettled])
    refine ⟨?_, hopen⟩
    rw [hbody, hd.body, List.getElem?_append_left hi, ha]
  · refine propagate_reacts hc' (.refl d) (aliases.length + i) (c.renamed s) ?_
    rw [hd.body, List.getElem?_append_right (Nat.le_add_right _ _), Nat.add_sub_cancel_left,
      List.getElem?_map, hs]
    rfl

theorem bindProps_bound (h : c.bindProps typescript = .ok c') :
    ∃ aliases, Bound typescript aliases c c' := by
  obtain ⟨d, aliases, n, hd, hc'⟩ := bindProps_eq_ok h
  exact ⟨aliases, hd.bound hc'⟩

/-- A statement of the component with its props bound is an alias, or a statement that was
    there, with the parameter renamed and perhaps made reactive. -/
theorem Bound.mem_cases {aliases : List Node} (h : Bound typescript aliases c c') {t : Node}
    (ht : t ∈ c'.body) : t ∈ aliases ∨ ∃ s ∈ c.body, t = c.renamed s ∨
      ∃ names, reactiveForm typescript (c.renamed s) = .ok (some (t, names)) := by
  obtain ⟨i, hi⟩ := List.mem_iff_getElem?.1 ht
  by_cases hlt : i < aliases.length
  · have halias := (h.head i _ (List.getElem?_eq_getElem hlt)).1
    rw [hi] at halias
    cases halias
    exact .inl (List.getElem_mem hlt)
  · obtain ⟨j, rfl⟩ := Nat.exists_eq_add_of_le (Nat.le_of_not_lt hlt)
    have hj : j < c.body.length := by
      have := (List.getElem?_eq_some_iff.1 hi).1
      rw [h.length] at this
      omega
    refine .inr ⟨c.body[j], List.getElem_mem hj, ?_⟩
    rcases h.statements j _ (List.getElem?_eq_getElem hj) with hsame | ⟨-, r, names, hr, hsame⟩
    · rw [hi] at hsame
      exact .inl (Option.some.inj hsame)
    · rw [hi] at hsame
      cases hsame
      exact .inr ⟨names, hr⟩

end Component

end Unhook
