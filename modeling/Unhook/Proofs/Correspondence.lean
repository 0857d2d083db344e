import Unhook.Proofs.Legible

/-!
# Statements and what becomes of them

After props are bound and state is extracted, the body of a component is that of
the source, statement by statement, with the aliases of props before it. A
statement is kept, or it is put under the reactive label, once, or it declares
state and is now the declaration of a variable (`Fate`). Throughout, the
parameter that takes all props has its new name and calls of setters are
assignments; where a declaration has become an assignment, calls of setters in
its pattern have been rewritten before the pattern was read again, or after.

* `Component.statements_correspond`: each statement has exactly one fate.
-/

namespace Unhook

open Node

/-- What becomes of a statement. -/
inductive Fate
  /-- It stays. -/
  | kept
  /-- It is put under the reactive label, as it is or as an assignment. -/
  | labelled
  /-- It becomes the variable of the state that it declares. -/
  | declared
  deriving DecidableEq

/-- A target is the one that a pattern is, by its text. Calls of setters in it are
    rewritten, after the pattern has become a target or before. -/
def Retargets (setters : List (Text × Text)) (p target : Node) : Prop :=
  (∃ t : Node, t.printPattern = p.asTarget.printPattern ∧ target = t.assigned setters) ∨
    target.printPattern = (p.assigned setters).asTarget.printPattern

/-- A statement of the source has become another one by the given fate. -/
def Fate.Relates (setters : List (Text × Text)) : Fate → (s t : Node) → Prop
  | kept, s, t => t = s.assigned setters
  | labelled, s, t =>
    s.isWrappable = true ∧ t = reactive (s.assigned setters) ∨
      ∃ p init x target, s.declared? = some (p, init) ∧ t = reactive x ∧
        IsAssignment target (init.assigned setters) x ∧ Retargets setters p target
  | declared, s, t => ∃ sd, StateDeclaration.ofStatement? s = .ok (some sd) ∧
      IsVariable sd.value (sd.initializer.map (assigned setters)) t

namespace Node

variable {n : Node}

/-- How many reactive labels stand before a statement. -/
def labels : Node → Nat
  | mk (.labeled l) _ [s] => s.labels + if l = reactiveLabel then 1 else 0
  | _ => 0

theorem labels_of_kind (h : ∀ l, n.kind ≠ .labeled l) : n.labels = 0 := by
  unfold labels
  split
  · exact (h _ rfl).elim
  · rfl

theorem labels_reactive (n : Node) : (reactive n).labels = n.labels + 1 := by
  rw [reactive, labels, if_pos rfl]

variable {setters : List (Text × Text)}

theorem kind_assigned_of_ne (h : ∀ l p, n.kind ≠ .call l p) :
    (n.assigned setters).kind = n.kind := by
  rcases kind_assigned setters n with hk | ⟨⟨_, _, hk⟩, -⟩
  · exact hk
  · exact absurd hk (h _ _)

theorem assigned_of_kind (h : ∀ l p, n.kind ≠ .call l p) :
    n.assigned setters = mk n.kind n.span (n.parts.map (assigned setters)) := by
  refine assigned_of_not_sets (Option.eq_none_iff_forall_ne_some.2 fun v hv => ?_)
  obtain ⟨o, pure, hk⟩ := kind_of_sets hv
  exact h _ _ hk

theorem labels_assigned (n : Node) : (n.assigned setters).labels = n.labels := by
  induction n with
  | mk k s ps ih =>
    by_cases hk : ∃ l, k = .labeled l
    · obtain ⟨l, rfl⟩ := hk
      rw [assigned_of_kind (by simp)]
      simp only [kind_mk, span_mk, parts_mk]
      rcases ps with _ | ⟨p, _ | ⟨q, ps⟩⟩
      · rfl
      · rw [List.map_cons, List.map_nil, labels, labels, ih p List.mem_cons_self]
      · rfl
    · rw [labels_of_kind, labels_of_kind]
      · exact fun l hl => hk ⟨l, hl⟩
      · intro l hl
        rcases kind_assigned setters (mk k s ps) with h | ⟨-, h⟩
        · exact hk ⟨l, h.symm.trans hl⟩
        · rw [h] at hl
          cases hl

theorem isWrappable_kind (h : n.isWrappable = true) :
    (∀ l, n.kind ≠ .labeled l) ∧ (∀ l p, n.kind ≠ .call l p) ∧ (∀ k d, n.kind ≠ .declaration k d) ∧
      n.kind ≠ .returnStatement := by
  unfold isWrappable at h
  refine ⟨?_, ?_, ?_, ?_⟩ <;> intros <;> intro hk <;> rw [hk] at h <;> cases h

theorem declared?_kind {x : Node × Node} (h : n.declared? = some x) :
    ∃ k d, n.kind = .declaration k d := by
  unfold declared? at h
  split at h
  · exact ⟨_, _, rfl⟩
  · cases h

end Node

namespace Fate

variable {setters : List (Text × Text)} {s t : Node}

/-- What is labelled had no label and has one. -/
theorem labels_of_labelled (h : labelled.Relates setters s t) : s.labels = 0 ∧ t.labels = 1 := by
  rcases h with ⟨hw, rfl⟩ | ⟨p, init, x, target, hp, rfl, ⟨sp, sp', rfl⟩, -⟩
  · have hs := labels_of_kind (isWrappable_kind hw).1
    exact ⟨hs, by rw [labels_reactive, labels_assigned, hs]⟩
  · obtain ⟨k, d, hk⟩ := declared?_kind hp
    exact ⟨labels_of_kind (by simp [hk]), by rw [labels_reactive]; rfl⟩

/-- Any other statement has the labels that it had. -/
theorem labels_of_ne_labelled {f : Fate} (h : f.Relates setters s t) (hf : f ≠ labelled) :
    t.labels = s.labels := by
  cases f with
  | kept =>
    rw [show t = _ from h]
    exact labels_assigned s
  | labelled => exact absurd rfl hf
  | declared =>
    obtain ⟨sd, hsd, sp, sp', sp'', sp₃, v, rfl, -⟩ := h
    obtain ⟨k, d, hk⟩ := StateDeclaration.ofStatement?_kind hsd
    rw [labels_of_kind (n := s) (by simp [hk])]
    rfl

/-- A declaration of state that is kept differs from its variable by its pattern. -/
theorem not_kept_of_declared (h : declared.Relates setters s t) : ¬kept.Relates setters s t := by
  intro hkept
  obtain ⟨sd, hsd, sp, sp', sp'', sp₃, v, rfl, -⟩ := h
  obtain ⟨k, d, sp, dk, sp', sp₂, sp₃, qs, sp₄, qs', note, init, rfl, -⟩ :=
    StateDeclaration.ofStatement?_eq_some hsd
  have hkept : _ = assigned setters _ := hkept
  rw [assigned_of_kind (by simp)] at hkept
  simp only [kind_mk, span_mk, parts_mk, List.map_cons, List.map_nil] at hkept
  injection hkept with _ _ hparts
  injection hparts with hdeclarator _
  have hdk : dk = .declarator false := by
    rcases kind_assigned setters (mk dk _ _) with hk | ⟨-, hk⟩
    · rw [← hdeclarator] at hk
      exact hk.symm
    · rw [← hdeclarator] at hk
      cases hk
  rw [hdk, assigned_of_kind (by simp)] at hdeclarator
  simp only [kind_mk, span_mk, parts_mk, List.map_cons, List.map_nil] at hdeclarator
  injection hdeclarator with _ _ hparts
  injection hparts with hpattern _
  rw [assigned_of_kind (by simp)] at hpattern
  cases hpattern

/-- A statement has at most one fate. -/
theorem eq_of_relates {f g : Fate} (hf : f.Relates setters s t) (hg : g.Relates setters s t) :
    f = g := by
  -- Labels tell the labelled from the others.
  have hlabels (f : Fate) (hf : f.Relates setters s t) :
      f = labelled ↔ t.labels = s.labels + 1 := by
    refine ⟨?_, fun h => ?_⟩
    · rintro rfl
      obtain ⟨hs, ht⟩ := labels_of_labelled hf
      rw [hs, ht]
    · refine Decidable.byContradiction fun hne => ?_
      have := labels_of_ne_labelled hf hne
      omega
  by_cases hlabelled : t.labels = s.labels + 1
  · rw [(hlabels f hf).2 hlabelled, (hlabels g hg).2 hlabelled]
  · have hf' : f ≠ labelled := fun h => hlabelled ((hlabels f hf).1 h)
    have hg' : g ≠ labelled := fun h => hlabelled ((hlabels g hg).1 h)
    cases f with
    | labelled => exact absurd rfl hf'
    | kept => cases g with
      | kept => rfl
      | labelled => exact absurd rfl hg'
      | declared => exact absurd hf (not_kept_of_declared hg)
    | declared => cases g with
      | kept => exact absurd hg (not_kept_of_declared hf)
      | labelled => exact absurd rfl hg'
      | declared => rfl

end Fate

namespace Node

variable {setters : List (Text × Text)} {n : Node}

theorem isAbsent_assigned (n : Node) : (n.assigned setters).isAbsent = n.isAbsent := by
  rcases kind_assigned setters n with h | ⟨⟨o, pure, h⟩, h'⟩
  · rw [isAbsent, h, isAbsent]
  · rw [isAbsent, isAbsent, h, h']
    simp

/-- What is no assignment once calls of setters are rewritten had its kind before. -/
theorem eq_of_assigned_eq_mk {k : Kind} {sp : Span} {ps : List Node}
    (h : n.assigned setters = mk k sp ps) (hk : k ≠ .assign none) (hcall : ∀ l p, k ≠ .call l p) :
    ∃ qs, n = mk k sp qs ∧ qs.map (assigned setters) = ps := by
  have hkind : n.kind = k := by
    rcases kind_assigned setters n with hn | ⟨-, hn⟩
    · rw [← hn, h, kind_mk]
    · rw [h] at hn
      exact absurd hn hk
  cases n with
  | mk k' sp' qs =>
    obtain rfl : k' = k := hkind
    rw [assigned_of_kind (n := mk k' sp' qs) hcall] at h
    cases h
    exact ⟨qs, rfl, rfl⟩

theorem of_declared?_assigned {n p' init' : Node}
    (h : (n.assigned setters).declared? = some (p', init')) :
    ∃ p init, n.declared? = some (p, init) ∧ p' = p.assigned setters ∧
      init' = init.assigned setters := by
  unfold declared? at h
  split at h
  · next k d sp k' sp' p' note' init' heq =>
    obtain ⟨qs, rfl, hqs⟩ := eq_of_assigned_eq_mk heq (by simp) (by simp)
    obtain ⟨e, rfl, he⟩ := List.map_eq_singleton_iff.1 hqs
    obtain ⟨rs, rfl, hrs⟩ := eq_of_assigned_eq_mk he (by simp) (by simp)
    obtain ⟨p, ps, rfl, rfl, hps⟩ := List.map_eq_cons_iff.1 hrs
    obtain ⟨note, is, rfl, rfl, his⟩ := List.map_eq_cons_iff.1 hps
    obtain ⟨init, rfl, rfl⟩ := List.map_eq_singleton_iff.1 his
    rw [isAbsent_assigned] at h
    split at h
    · cases h
    · next hinit =>
      cases h
      exact ⟨p, init, by rw [declared?, if_neg hinit], rfl, rfl⟩
  · cases h

theorem assigned_reactive (h : ∀ l p, n.kind ≠ .call l p) :
    (reactive n).assigned setters = reactive (n.assigned setters) := by
  have hspan : (n.assigned setters).span = n.span := by rw [assigned_of_kind h, span_mk]
  rw [reactive, assigned_of_kind (by simp), reactive, hspan]
  rfl

theorem isWrappable_of_assigned (h : (n.assigned setters).isWrappable = true) :
    n.isWrappable = true := by
  rcases kind_assigned setters n with hk | ⟨-, hk⟩
  · unfold isWrappable at h ⊢
    rwa [hk] at h
  · rw [isWrappable, hk] at h
    cases h

end Node

theorem IsAssignment.assigned {setters : List (Text × Text)} {target value s : Node}
    (h : IsAssignment target value s) :
    IsAssignment (target.assigned setters) (value.assigned setters) (s.assigned setters) := by
  obtain ⟨sp, sp', rfl⟩ := h
  refine ⟨sp, sp', ?_⟩
  rw [assigned_of_kind (by simp)]
  simp only [kind_mk, span_mk, parts_mk, List.map_cons, List.map_nil]
  rw [assigned_of_kind (by simp)]
  rfl

theorem IsVariable.assigned {setters : List (Text × Text)} {name : Text} {value : Option Node}
    {s : Node} (h : IsVariable name value s) :
    IsVariable name (value.map (Node.assigned setters)) (s.assigned setters) := by
  obtain ⟨sp, sp', sp'', sp₃, v, rfl, hv⟩ := h
  refine ⟨sp, sp', sp'', sp₃, v.assigned setters, ?_, ?_⟩
  · rw [assigned_of_kind (by simp)]
    simp only [kind_mk, span_mk, parts_mk, List.map_cons, List.map_nil]
    rw [assigned_of_kind (by simp)]
    simp only [kind_mk, span_mk, parts_mk, List.map_cons, List.map_nil]
    rw [assigned_of_kind (by simp), assigned_of_kind (n := .mk .absent _ _) (by simp)]
    rfl
  · cases value with
    | some e => exact congrArg _ hv
    | none => exact (Node.isAbsent_assigned v).trans hv

namespace Component

variable {typescript : Bool} {b c d : Component}

/-- Whether everything that the compiler writes as text for a component, given its
    setters, is read as it is meant. -/
def isLegible (typescript : Bool) (setters : List (Text × Text)) (c : Component) : Bool :=
  c.aliasTexts.all (readsLabel typescript) && setters.all (fun p => readsVariable typescript p.2) &&
    c.body.all fun s =>
      match (c.renamed s).declared? with
      | some (p, _) => readsTarget typescript p && readsTarget typescript (p.assigned setters)
      | none => true

theorem renamed_kind (c : Component) (s : Node) :
    (c.renamed s).kind = s.kind ∨ ∃ old, (c.renamed s).kind = s.kind.rename old propsObject := by
  unfold renamed
  split
  · next n _ _ _ =>
    cases s
    exact .inr ⟨n, rfl⟩
  · exact .inl rfl

theorem hasHole_renamed (c : Component) {s : Node} (h : s.hasHole = false) :
    (c.renamed s).hasHole = false := by
  unfold renamed
  split
  · exact hasHole_rename (by decide) h
  · exact h

/-- An alias is under the reactive label. -/
theorem Bound.kind_alias {aliases : List Node} (h : Bound typescript aliases c b)
    (hlabels : c.aliasTexts.all (readsLabel typescript) = true) {a : Node} (ha : a ∈ aliases) :
    a.kind = .labeled reactiveLabel := by
  have hmem : Except.ok a ∈ c.aliasTexts.map (Template.read typescript) := by
    rw [h.texts]
    exact List.mem_map_of_mem ha
  obtain ⟨t, ht, hread⟩ := List.mem_map.1 hmem
  have hlabel := List.all_eq_true.1 hlabels t ht
  rw [readsLabel, hread, Template.passes] at hlabel
  exact of_decide_eq_true hlabel

/-- A statement that has no label once props are bound is one of the source. -/
theorem Bound.source_of_not_labelled {aliases : List Node} (h : Bound typescript aliases c b)
    (hlabels : c.aliasTexts.all (readsLabel typescript) = true) {i : Nat} {s : Node}
    (hs : b.body[i]? = some s) (hkind : s.kind ≠ .labeled reactiveLabel) :
    ∃ s₀ ∈ c.body, s = c.renamed s₀ := by
  rcases h.mem_cases (List.mem_of_getElem? hs) with halias | ⟨s₀, hs₀, hsame | ⟨names, hr⟩⟩
  · exact absurd (h.kind_alias hlabels halias) hkind
  · exact ⟨s₀, hs₀, hsame⟩
  · rcases reactiveForm_cases hr with ⟨-, rfl, -⟩ | ⟨_, _, _, -, -, rfl, -⟩ <;>
      exact absurd rfl hkind

/-- The values that setters set are not named like holes, if nothing in the source
    is. -/
theorem isHole_setters (hc : c.setters = []) (hb : c.bindProps typescript = .ok b)
    (hd : b.extractState typescript = .ok d) (hholes : ∀ s ∈ c.body, s.hasHole = false)
    (hlabels : c.aliasTexts.all (readsLabel typescript) = true) :
    ∀ p ∈ d.setters, Template.isHole p.2 = false := by
  obtain ⟨aliases, hbound⟩ := bindProps_bound hb
  refine extractState_isHole (hbound.setters.trans hc) hd fun s hs sd hsd => ?_
  obtain ⟨i, hi⟩ := List.mem_iff_getElem?.1 hs
  obtain ⟨k, d', hk⟩ := StateDeclaration.ofStatement?_kind hsd
  obtain ⟨s₀, hs₀, rfl⟩ := hbound.source_of_not_labelled hlabels hi (by simp [hk])
  exact c.hasHole_renamed (hholes s₀ hs₀)

end Component

namespace Fate

variable {typescript : Bool} {setters : List (Text × Text)} {s r : Node} {names : List Text}

/-- A statement that is made reactive before calls of setters are rewritten. -/
theorem labelled_of_reactiveForm (hs : s.hasHole = false)
    (htarget : ∀ p init, s.declared? = some (p, init) → readsTarget typescript p = true)
    (h : reactiveForm typescript s = .ok (some (r, names))) :
    labelled.Relates setters s (r.assigned setters) := by
  rcases reactiveForm_cases h with ⟨hw, rfl, -⟩ | ⟨p, init, a, hp, ha, rfl, -⟩
  · exact .inl ⟨hw, assigned_reactive (isWrappable_kind hw).2.1⟩
  · obtain ⟨t, ht, -, hassign⟩ := isAssignment_fill init (htarget p init hp)
      (hasHole_declared? hs hp) ha
    have hkind : ∀ l p, (Template.fill init a).1.kind ≠ .call l p := by
      obtain ⟨sp, sp', hfill⟩ := hassign
      simp [hfill]
    exact .inr ⟨p, init, _, t.assigned setters, hp, assigned_reactive hkind, hassign.assigned,
      .inl ⟨t, ht, rfl⟩⟩

/-- A statement that is made reactive after calls of setters are rewritten. -/
theorem labelled_of_reactiveForm_assigned (hs : s.hasHole = false)
    (hsetters : ∀ p ∈ setters, Template.isHole p.2 = false)
    (htarget : ∀ p init, s.declared? = some (p, init) →
      readsTarget typescript (p.assigned setters) = true)
    (h : reactiveForm typescript (s.assigned setters) = .ok (some (r, names))) :
    labelled.Relates setters s r := by
  rcases reactiveForm_cases h with ⟨hw, rfl, -⟩ | ⟨p', init', a, hp', ha, rfl, -⟩
  · exact .inl ⟨isWrappable_of_assigned hw, rfl⟩
  · obtain ⟨p, init, hp, rfl, rfl⟩ := of_declared?_assigned hp'
    obtain ⟨t, ht, -, hassign⟩ := isAssignment_fill (init.assigned setters) (htarget p init hp)
      (hasHole_assigned hsetters (hasHole_declared? hs hp)) ha
    exact .inr ⟨p, init, _, t, hp, rfl, hassign, .inr ht⟩

/-- Only what is kept stands under a label or returns. -/
theorem eq_kept {f : Fate} {t : Node} (h : f.Relates setters s t)
    (hs : s.kind = .returnStatement ∨ ∃ l, s.kind = .labeled l) : f = kept := by
  cases f with
  | kept => rfl
  | labelled =>
    rcases h with ⟨hw, -⟩ | ⟨p, init, x, target, hp, -⟩
    · obtain ⟨hlabel, -, -, hreturn⟩ := isWrappable_kind hw
      rcases hs with hs | ⟨l, hs⟩
      · exact absurd hs hreturn
      · exact absurd hs (hlabel l)
    · obtain ⟨k, d, hk⟩ := declared?_kind hp
      simp [hk] at hs
  | declared =>
    obtain ⟨sd, hsd, -⟩ := h
    obtain ⟨k, d, hk⟩ := StateDeclaration.ofStatement?_kind hsd
    simp [hk] at hs

end Fate

namespace Component

variable {typescript : Bool} {length : Nat} {module : List Node} {b c d : Component}

/-- A statement that is made reactive when props are bound declares no state: a call
    for state would be left in it. -/
theorem not_state_of_reactiveForm {s r : Node} {names : List Text} (hs : s.hasHole = false)
    (htarget : ∀ p init, s.declared? = some (p, init) → readsTarget typescript p = true)
    (h : reactiveForm typescript s = .ok (some (r, names)))
    (hfind : r.find? (fun n => n.hook? = some .state) = none) (sd : StateDeclaration) :
    StateDeclaration.ofStatement? s ≠ .ok (some sd) := by
  intro hsd
  obtain ⟨k, d, sp, dk, sp', sp₂, sp₃, qs, sp₄, qs', note, init, rfl, hstate, -⟩ :=
    StateDeclaration.ofStatement?_eq_some hsd
  rcases reactiveForm_cases h with ⟨hw, -, -⟩ | ⟨p, init', a, hp, ha, rfl, -⟩
  · cases hw
  · obtain ⟨t, -, -, sp, sp', hassign⟩ := isAssignment_fill init' (htarget p init' hp)
      (hasHole_declared? hs hp) ha
    have hinit : init' = init := by
      unfold declared? at hp
      split at hp
      · next heq =>
        cases heq
        split at hp
        · cases hp
        · cases hp
          rfl
      · cases hp
    rw [hassign] at hfind
    -- The value is the second part of the assignment.
    have hassignment := (find?_eq_none.1 ((find?_eq_none.1 hfind).2 _ List.mem_cons_self)).2 _
      List.mem_cons_self
    have hvalue := (find?_eq_none.1 hassignment).2 init' (by simp)
    have hcall := (find?_eq_none.1 hvalue).1
    rw [hinit, hstate] at hcall
    simp at hcall

/-- Each statement has a fate, and it is that of a variable if the statement declares
    state. -/
theorem exists_fate (hc : ofModule length module = .ok c)
    (hb : c.bindProps typescript = .ok b) (hd : b.extractState typescript = .ok d)
    (hholes : ∀ s ∈ c.body, s.hasHole = false) (hread : c.isLegible typescript d.setters = true)
    {aliases : List Node} (hbound : Bound typescript aliases c b) {i : Nat} {s : Node}
    (hs : c.body[i]? = some s) :
    ∃ t, ∃ f : Fate, d.body[aliases.length + i]? = some t ∧ f.Relates d.setters (c.renamed s) t ∧
      (f = .declared ↔ ∃ sd, StateDeclaration.ofStatement? (c.renamed s) = .ok (some sd)) := by
  simp only [isLegible, Bool.and_eq_true] at hread
  obtain ⟨⟨hlabels, hvariables⟩, htargets⟩ := hread
  obtain ⟨-, hsetters, -⟩ := ofModule_fresh hc
  have hmem := List.mem_of_getElem? hs
  have hhole := c.hasHole_renamed (hholes s hmem)
  have htarget (p init : Node) (hp : (c.renamed s).declared? = some (p, init)) :
      readsTarget typescript p = true ∧ readsTarget typescript (p.assigned d.setters) = true := by
    have h := List.all_eq_true.1 htargets s hmem
    rw [hp] at h
    exact Bool.and_eq_true_iff.1 h
  rcases hbound.statements i s hs with hsame | ⟨hsettled, r, names, hr, hsame⟩
  · rcases extractState_body hd hsame with ⟨sd, t, hsd, ht, hsetter, hbody⟩ |
      ⟨hnone, hsettled⟩
    · have hvalue : readsVariable typescript sd.value = true :=
        List.all_eq_true.1 hvariables (sd.setter, sd.value) hsetter
      exact ⟨_, .declared, hbody, ⟨sd, hsd, (sd.isVariable_declaration hvalue ht).assigned⟩,
        fun _ => ⟨sd, hsd⟩, fun _ => rfl⟩
    have hundeclared : ¬ ∃ sd, StateDeclaration.ofStatement? (c.renamed s) = .ok (some sd) := by
      rintro ⟨sd, hsd⟩
      rw [hnone] at hsd
      cases hsd
    rcases hsettled with hbody | ⟨-, r, names, hr, hbody⟩
    · exact ⟨_, .kept, hbody, rfl, fun h => (by cases h), fun h => absurd h hundeclared⟩
    · refine ⟨r, .labelled, hbody, ?_, fun h => (by cases h), fun h => absurd h hundeclared⟩
      exact Fate.labelled_of_reactiveForm_assigned hhole
        (isHole_setters hsetters hb hd hholes hlabels) (fun p init hp => (htarget p init hp).2) hr
  · have hlabel : ∃ x, r = reactive x := by
      rcases reactiveForm_cases hr with ⟨-, rfl, -⟩ | ⟨_, _, _, -, -, rfl, -⟩ <;> exact ⟨_, rfl⟩
    have hnone : StateDeclaration.ofStatement? r = .ok none := by
      obtain ⟨x, rfl⟩ := hlabel
      rfl
    rcases extractState_body hd hsame with ⟨sd, t, hsd, -⟩ | ⟨-, hbody | ⟨hopen, -⟩⟩
    · rw [hnone] at hsd
      cases hsd
    · refine ⟨_, .labelled, hbody, ?_, fun h => (by cases h), ?_⟩
      · exact Fate.labelled_of_reactiveForm hhole (fun p init hp => (htarget p init hp).1) hr
      · rintro ⟨sd, hsd⟩
        exact absurd hsd (not_state_of_reactiveForm hhole (fun p init hp => (htarget p init hp).1)
          hr (extractState_find? hd hsame hnone) sd)
    · simp [isOpen, hsettled] at hopen

/-- Each statement has exactly one fate: when binding props and extracting state
    succeed, the body is that of the source with the aliases of props before it, in the
    order of the pattern, and each statement of the source is kept, or put under the
    reactive label once, or has become the variable of the state that it declares. The
    hypotheses are that the source does not use the names of holes, and that what is
    written out is read as it is meant. -/
theorem statements_correspond (hc : ofModule length module = .ok c)
    (hb : c.bindProps typescript = .ok b) (hd : b.extractState typescript = .ok d)
    (hholes : ∀ s ∈ c.body, s.hasHole = false) (hread : c.isLegible typescript d.setters = true) :
    ∃ aliases : List Node, c.aliasTexts.map (Template.read typescript) = aliases.map .ok ∧
      d.body.length = aliases.length + c.body.length ∧
      (∀ (i : Nat) (a : Node), aliases[i]? = some a → d.body[i]? = some (a.assigned d.setters)) ∧
      ∀ (i : Nat) s, c.body[i]? = some s → ∃ t, ∃ f : Fate, d.body[aliases.length + i]? = some t ∧
        f.Relates d.setters (c.renamed s) t ∧
        (∀ g : Fate, g.Relates d.setters (c.renamed s) t → g = f) ∧
        t.labels = (c.renamed s).labels + (if f = .labelled then 1 else 0) ∧
        (f = .labelled → (c.renamed s).labels = 0) ∧
        (s.kind = .returnStatement ∨ (∃ l, s.kind = .labeled l) → f = .kept) ∧
        (f = .declared ↔ ∃ sd, StateDeclaration.ofStatement? (c.renamed s) = .ok (some sd)) := by
  obtain ⟨aliases, hbound⟩ := bindProps_bound hb
  refine ⟨aliases, hbound.texts, (extractState_length hd).trans hbound.length, fun i a ha => ?_,
    fun i s hs => ?_⟩
  · obtain ⟨hbody, hopen⟩ := hbound.head i a ha
    have hlabels : c.aliasTexts.all (readsLabel typescript) = true := by
      simp only [isLegible, Bool.and_eq_true] at hread
      exact hread.1.1
    have hkind := hbound.kind_alias hlabels (List.mem_of_getElem? ha)
    rcases extractState_body hd hbody with ⟨sd, t, hsd, -⟩ | ⟨-, hbody | ⟨hopen', -⟩⟩
    · obtain ⟨k, d', hk⟩ := StateDeclaration.ofStatement?_kind hsd
      rw [hk] at hkind
      cases hkind
    · exact hbody
    · rw [hopen] at hopen'
      cases hopen'
  · obtain ⟨t, f, hbody, hf, hstate⟩ := exists_fate hc hb hd hholes hread hbound hs
    refine ⟨t, f, hbody, hf, fun g hg => Fate.eq_of_relates hg hf, ?_, ?_, fun hkind => ?_, hstate⟩
    · split
      · next hlabelled =>
        subst hlabelled
        obtain ⟨hs, ht⟩ := Fate.labels_of_labelled hf
        rw [hs, ht]
      · next hne => exact Fate.labels_of_ne_labelled hf hne
    · rintro rfl
      exact (Fate.labels_of_labelled hf).1
    · refine Fate.eq_kept hf ?_
      rcases c.renamed_kind s with h | ⟨old, h⟩ <;> rw [h]
      · exact hkind
      · rcases hkind with hkind | ⟨l, hkind⟩ <;> rw [hkind]
        · exact .inl rfl
        · exact .inr ⟨l, rfl⟩

/-- A component with an alias, a piece of state, a declaration that reacts to both, and
    a label of its own. -/
def followSource : Text :=
  "export default (\x7b a, b: [x] \x7d) => \x7b
    const [n, setN] = useState(a);
    const \x7b y = x \x7d = n;
    $: z = y;
    return <p/>;
  \x7d;"

theorem follow_statements_correspond :
    ∃ length module c b d s t s' t', ofModule length module = .ok c ∧ c.bindProps false = .ok b ∧
      b.extractState false = .ok d ∧ (∀ s ∈ c.body, s.hasHole = false) ∧
      c.isLegible false d.setters = true ∧ d.body.length = 1 + 4 ∧
      (c.body[0]? = some s ∧ d.body[1 + 0]? = some t ∧
        Fate.declared.Relates d.setters (c.renamed s) t ∧ t.labels = 0) ∧
      c.body[1]? = some s' ∧ d.body[1 + 1]? = some t' ∧
        Fate.labelled.Relates d.setters (c.renamed s') t' ∧ t'.labels = 1 := by
  have hsource : ((parse {} followSource).toOption.bind fun module =>
      (ofModule followSource.byteLength module).toOption.bind fun c =>
      (c.bindProps false).toOption.bind fun b => (b.extractState false).toOption.bind fun d =>
      c.body[0]?.bind fun s => c.body[1]?.map fun s' =>
        ((c.body.all fun s => !s.hasHole) && c.isLegible false d.setters,
          (StateDeclaration.ofStatement? (c.renamed s)).toOption.map Option.isSome,
          d.body[2]?.map Node.labels,
          [(c.renamed s).labels, (c.renamed s').labels, c.body.length, c.aliasTexts.length])) =
      some (true, some true, some 1, [0, 0, 4, 1]) := by
    rw [(by apply String.toList_ofList : followSource = _)]
    decide +kernel
  obtain ⟨module, hmodule, hsource⟩ := Option.bind_eq_some_iff.1 hsource
  obtain ⟨c, hc, hsource⟩ := of_toOption_bind hsource
  obtain ⟨b, hb, hsource⟩ := of_toOption_bind hsource
  obtain ⟨d, hd, hsource⟩ := of_toOption_bind hsource
  obtain ⟨s, hs, hsource⟩ := Option.bind_eq_some_iff.1 hsource
  obtain ⟨s', hs', hsource⟩ := Option.map_eq_some_iff.1 hsource
  simp only [Prod.mk.injEq, Bool.and_eq_true] at hsource
  obtain ⟨⟨hholes, hread⟩, hstate, hlabels, hcounts⟩ := hsource
  obtain ⟨hnone, hnone', hlength, haliases, -⟩ : _ ∧ _ ∧ _ ∧ _ ∧ _ := by
    simpa only [List.cons.injEq] using hcounts
  have hholes : ∀ s ∈ c.body, s.hasHole = false := by simpa using hholes
  obtain ⟨aliases, htexts, hbody, -, hfates⟩ := statements_correspond hc hb hd hholes hread
  have hone : aliases.length = 1 := by
    rw [← haliases, ← List.length_map (f := Template.read false), htexts, List.length_map]
  rw [hone] at hbody hfates
  obtain ⟨t, f, ht, hf, -, hcount, -, -, hdeclared⟩ := hfates 0 s hs
  obtain ⟨t', f', ht', hf', -, hcount', -, -, -⟩ := hfates 1 s' hs'
  have hf₀ : f = .declared := by
    refine hdeclared.2 ?_
    obtain ⟨o, ho, hsome⟩ := of_toOption_map hstate
    obtain ⟨sd, rfl⟩ := Option.isSome_iff_exists.1 hsome
    exact ⟨sd, ho⟩
  subst hf₀
  rw [ht'] at hlabels
  have hlabels : t'.labels = 1 := Option.some.inj hlabels
  have hf₁ : f' = .labelled := by
    refine Decidable.byContradiction fun hne => ?_
    rw [if_neg hne] at hcount'
    omega
  subst hf₁
  exact ⟨_, module, c, b, d, s, t, s', t', hc, hb, hd, hholes, hread, hlength ▸ hbody,
    ⟨hs, ht, hf, by rw [hcount, hnone]; rfl⟩, hs', ht', hf', hlabels⟩

end Component

end Unhook
