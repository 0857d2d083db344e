import Unhook.Proofs.Inlining

/-!
# Statements that are emitted

The last steps of compilation take effects and memoizing hooks apart, fill the
holes of statements and remove what declares markup. What is emitted then has
content in the markup that is returned and in blocks only.

* `Node.fits_unmemo`, `Effect.fitsBody_lower`: hooks are taken apart so that
  content stays where it may stand;
* `MarkupTable.fits_withoutMarkup`: of a statement no content is left;
* `Component.fits_inlineMarkup`: so it is for all statements.
-/

namespace Unhook

open Node

variable {w : Content}

namespace Node

variable {n s : Node}

/-- What does not show markup by itself is no content. -/
theorem isKind_of_not_isMarkupValue (hw : w.Lifts) (h : n.isMarkupValue = false) :
    w.isKind n.kind = false := by
  refine isKind_of_not_shows hw [] ?_
  rw [isMarkupValue, Bool.or_eq_false_iff] at h
  unfold Choice.shows
  split
  · next x hx => simpa [isPlaceholder, hx] using h.2
  · exact h.1

/-- What is shown but does not show markup by itself has no content where none
    may stand. -/
theorem fits_expression_of_shown (hw : w.Lifts) (h : n.fits w false .shown = true)
    (hn : n.isMarkupValue = false) : n.fits w false .expression = true := by
  have hk := isKind_of_not_isMarkupValue hw hn
  obtain ⟨k, s, ps⟩ := n
  rw [kind_mk] at hk
  have hpart : Spot.expression.part false k (ps.map kind) =
      Spot.shown.part false k (ps.map kind) := by
    funext i
    unfold Spot.part
    split <;> simp
  rw [fits_mk] at h ⊢
  rw [hpart, hk]
  exact ⟨fun h => (Bool.false_ne_true h).elim, h.2⟩

/-- A node has no content where none may stand if the parts have none whose
    spot would be another there. -/
theorem fits_expression_of_parts (hw : w.Lifts) {spot : Spot}
    (h : n.fits w false spot = true) (hs : ¬(spot = .shown ∨ spot = .hole ∨ spot = .branch))
    (hparts : ∀ (j : Nat) (p : Node), n.parts[j]? = some p → p.fits w false .expression = true ∨
      spot.part false n.kind (n.parts.map kind) j =
        Spot.expression.part false n.kind (n.parts.map kind) j) :
    n.fits w false .expression = true := by
  have hk := isKind_of_fits hw h hs
  obtain ⟨k, s, ps⟩ := n
  simp only [kind_mk, parts_mk] at hk hparts
  rw [fits_mk, fitsList_iff] at h ⊢
  rw [hk]
  refine ⟨fun h => (Bool.false_ne_true h).elim, fun j p hp => ?_⟩
  rw [Bool.false_and, Nat.zero_add]
  rcases hparts j p hp with he | he
  · exact fits_of_fits_expression hw he _
  · have hp := h.2 j p hp
    rwa [Bool.false_and, Nat.zero_add, he] at hp

theorem isMarkupValue_of_isAbsent (h : n.isAbsent = true) : n.isMarkupValue = false := by
  obtain ⟨k, s, ps⟩ := n
  obtain rfl : k = .absent := of_decide_eq_true h
  rfl

/-- A declarator that gives no name markup has no content where none may
    stand. -/
theorem fits_expression_of_declarator (hw : w.Lifts) {d : Node}
    (h : d.fits w false .declarator = true)
    (hd : ∀ x v, d.declarator? = some (x, v) → v.isMarkupValue = false) :
    d.fits w false .expression = true := by
  refine fits_expression_of_parts hw h (by simp) fun j p hp => ?_
  obtain ⟨k, s, ps⟩ := d
  simp only [kind_mk, parts_mk] at hp ⊢
  generalize hks : ps.map kind = ks
  unfold Spot.part
  split
  case h_7 =>
    by_cases hj : j = 2
    · obtain ⟨⟨kb, sb, qs⟩, type, v, rfl⟩ :=
        List.length_eq_three.1 ((List.length_map _).symm.trans (congrArg List.length hks))
      obtain ⟨rfl, -⟩ := List.cons.inj hks
      subst hj
      obtain rfl : v = p := by simpa using hp
      refine .inl (fits_expression_of_shown hw ?_ ?_)
      · exact fitsList_iff.1 (fits_mk.1 h).2 2 v rfl
      · cases hv : v.isAbsent with
        | true => exact isMarkupValue_of_isAbsent hv
        | false => exact hd _ v (by rw [declarator?, hv]; rfl)
    · exact .inr (by simp [hj])
  all_goals exact .inr (by simp)

/-- An expression that assigns no name markup has no content where none may
    stand. -/
theorem fits_expression_of_assignment (hw : w.Lifts) {e : Node}
    (h : e.fits w false .assignment = true)
    (he : ∀ x v, e.assignment? = some (x, v) → v.isMarkupValue = false) :
    e.fits w false .expression = true := by
  refine fits_expression_of_parts hw h (by simp) fun j p hp => ?_
  obtain ⟨k, s, ps⟩ := e
  simp only [kind_mk, parts_mk] at hp ⊢
  generalize hks : ps.map kind = ks
  unfold Spot.part
  split
  case h_8 =>
    by_cases hj : j = 1
    · obtain ⟨⟨kb, sb, qs⟩, v, rfl⟩ :=
        List.length_eq_two.1 ((List.length_map _).symm.trans (congrArg List.length hks))
      obtain ⟨rfl, -⟩ := List.cons.inj hks
      subst hj
      obtain rfl : v = p := by simpa using hp
      exact .inl (fits_expression_of_shown hw (fitsList_iff.1 (fits_mk.1 h).2 1 v rfl) (he _ v rfl))
    · exact .inr (by simp [hj])
  all_goals exact .inr (by simp)

/-- A statement without its label that gives no name markup has no content
    where none may stand. -/
theorem fits_expression_of_unlabeled (hw : w.Lifts) (h : s.fits w false .unlabeled = true)
    (hd : ∀ k d sp ds, s = mk (.declaration k d) sp ds → ∀ e ∈ ds, ∀ x v,
      e.declarator? = some (x, v) → v.isMarkupValue = false)
    (ha : ∀ sp e, s = mk .expressionStatement sp [e] → ∀ x v,
      e.assignment? = some (x, v) → v.isMarkupValue = false) :
    s.fits w false .expression = true := by
  refine fits_expression_of_parts hw h (by simp) fun j p hp => ?_
  obtain ⟨k, sp, ps⟩ := s
  simp only [kind_mk, parts_mk] at hp ⊢
  generalize hks : ps.map kind = ks
  have hmem := List.mem_of_getElem? hp
  have hfits := fitsList_iff.1 (fits_mk.1 h).2 j p hp
  rw [Bool.false_and] at hfits
  unfold Spot.part at hfits ⊢
  split
  case h_5 =>
    exact .inl (fits_expression_of_declarator hw hfits (hd _ _ _ _ rfl p hmem))
  case h_6 =>
    obtain ⟨e, rfl, -⟩ := List.map_eq_singleton_iff.1 hks
    obtain rfl : p = e := by simpa using hmem
    exact .inl (fits_expression_of_assignment hw hfits (ha _ _ rfl))
  all_goals exact .inr (by simp)

/-- What a statement is without its label has its content where it may stand. -/
theorem fits_unlabeled (hw : w.Lifts) (h : s.fits w false .statement = true) :
    s.unlabeled.fits w false .unlabeled = true := by
  unfold unlabeled
  split
  · exact fitsList_iff.1 (fits_mk.1 h).2 0 _ rfl
  · next hl =>
    have hk := isKind_of_fits hw h (by simp)
    obtain ⟨k, sp, ps⟩ := s
    rw [kind_mk] at hk
    have hpart : Spot.unlabeled.part false k (ps.map kind) =
        Spot.statement.part false k (ps.map kind) := by
      funext i
      generalize hks : ps.map kind = ks
      unfold Spot.part
      split
      case h_4 =>
        obtain ⟨e, rfl, -⟩ := List.map_eq_singleton_iff.1 hks
        exact (hl _ _ _ rfl).elim
      all_goals simp
    rw [fits_mk] at h ⊢
    rw [hpart, hk]
    exact ⟨fun h => (Bool.false_ne_true h).elim, h.2⟩

/-- A statement has no content where none may stand if it has none without its
    label. -/
theorem fits_expression_of_fits_unlabeled (hw : w.Lifts)
    (h : s.fits w false .statement = true) (hu : s.unlabeled.fits w false .expression = true) :
    s.fits w false .expression = true := by
  unfold unlabeled at hu
  split at hu
  · refine fits_expression_of_parts hw h (by simp) fun j p hp => .inl ?_
    obtain rfl : p = _ := by simpa using List.mem_of_getElem? hp
    exact hu
  · exact hu

end Node

namespace MarkupTable

variable {x : Text}

/-- The markup that a statement gives to names: by declarators, or by an
    assignment. -/
theorem mem_ofStatement {s v : Node} (h : (x, v) ∈ ofStatement s) :
    v.isMarkupValue = true ∧
      ((∃ k d sp ds e, s.unlabeled = mk (.declaration k d) sp ds ∧ e ∈ ds ∧
          e.declarator? = some (x, v)) ∨
        ∃ sp e, s.unlabeled = mk .expressionStatement sp [e] ∧ e.assignment? = some (x, v)) := by
  unfold ofStatement at h
  split at h
  · next k d sp ds hs =>
    obtain ⟨e, he, hx⟩ := List.mem_filterMap.1 h
    obtain ⟨hx, hv⟩ := Option.filter_eq_some_iff.1 hx
    exact ⟨hv, .inl ⟨k, d, sp, ds, e, hs, he, hx⟩⟩
  · next sp e hs =>
    obtain ⟨hx, hv⟩ := Option.filter_eq_some_iff.1 (Option.mem_toList.1 h)
    exact ⟨hv, .inr ⟨sp, e, hs, hx⟩⟩
  · cases h

/-- The markup that a statement gives to names stands where it may. -/
theorem fits_of_mem_ofStatement (hw : w.Lifts) {s v : Node}
    (h : s.fits w false .statement = true) (hm : (x, v) ∈ ofStatement s) :
    v.fits w false .shown = true := by
  have hu := fits_unlabeled hw h
  rcases (mem_ofStatement hm).2 with ⟨k, d, sp, ds, e, hs, he, hx⟩ | ⟨sp, e, hs, hx⟩
  · obtain ⟨j, hj⟩ := List.getElem?_of_mem he
    rw [hs] at hu
    have he : e.fits w false .declarator = true := fitsList_iff.1 (fits_mk.1 hu).2 j e hj
    unfold declarator? at hx
    split at hx
    · split at hx
      · cases hx
      · cases hx
        exact fitsList_iff.1 (fits_mk.1 he).2 2 v rfl
    · cases hx
  · rw [hs] at hu
    have he : e.fits w false .assignment = true := fitsList_iff.1 (fits_mk.1 hu).2 0 e rfl
    unfold assignment? at hx
    split at hx
    · cases hx
      exact fitsList_iff.1 (fits_mk.1 he).2 1 v rfl
    · cases hx

/-- What a name is given that is not given markup does not show markup. -/
theorem not_isMarkupValue_of_declarator? {s e v : Node} {k : VarKind} {d : Bool}
    {sp : Span} {ds : List Node} (hs : s.unlabeled = mk (.declaration k d) sp ds)
    (he : e ∈ ds) (hx : e.declarator? = some (x, v))
    (hn : x ∉ (ofStatement s).map (·.1)) : v.isMarkupValue = false := by
  rw [← Bool.not_eq_true]
  intro hv
  refine hn (List.mem_map.2 ⟨(x, v), ?_, rfl⟩)
  unfold ofStatement
  rw [hs]
  exact List.mem_filterMap.2 ⟨e, he, Option.filter_eq_some_iff.2 ⟨hx, hv⟩⟩

/-- What is left of the declarators of a statement gives no name markup. -/
theorem fits_of_mem_kept (hw : w.Lifts) {s e : Node} {k : VarKind} {d : Bool} {sp : Span}
    {ds : List Node} (h : s.fits w false .statement = true)
    (hs : s.unlabeled = mk (.declaration k d) sp ds) (he : e ∈ ds)
    (hn : ∀ x v, e.declarator? = some (x, v) → x ∉ (ofStatement s).map (·.1)) :
    e.fits w false .expression = true := by
  have hu := fits_unlabeled hw h
  rw [hs] at hu
  obtain ⟨j, hj⟩ := List.getElem?_of_mem he
  have hfits : e.fits w false .declarator = true := fitsList_iff.1 (fits_mk.1 hu).2 j e hj
  exact fits_expression_of_declarator hw hfits fun x v hx =>
    not_isMarkupValue_of_declarator? hs he hx (hn x v hx)

/-- Of a statement without its declarations of markup no content is left where
    none may stand. -/
theorem fits_withoutMarkup (hw : w.Lifts) {s s' : Node} (h : s.fits w false .statement = true)
    (hs : withoutMarkup s = some s') : s'.fits w false .expression = true := by
  -- Of declarators with a plain name only those are kept that are given no markup.
  have hkept (k : VarKind) (d : Bool) (sp : Span) (ds : List Node) (keeps : Node → Bool)
      (hkeeps : ∀ b sb n sn qs ps, keeps (mk (.declarator b) sb (mk (.binding n) sn qs :: ps)) =
        !((ofStatement s).map (·.1)).contains n)
      (hs : s.unlabeled = mk (.declaration k d) sp ds) :
      (mk (.declaration k d) sp (ds.filter keeps)).fits w false .expression = true := by
    have hk : w.isKind (.declaration k d) = false :=
      isKind_of_not_isMarkupValue (n := mk (.declaration k d) sp ds) hw rfl
    rw [fits_mk, fitsList_iff, hk]
    refine ⟨fun h => (Bool.false_ne_true h).elim, fun j e he => ?_⟩
    obtain ⟨he, hkeep⟩ := List.mem_filter.1 (List.mem_of_getElem? he)
    refine fits_of_mem_kept hw h hs he fun x v hx => ?_
    unfold declarator? at hx
    split at hx
    · split at hx
      · cases hx
      · cases hx
        rw [hkeeps] at hkeep
        simpa using hkeep
    · cases hx
  unfold withoutMarkup at hs
  dsimp only at hs
  split at hs
  · next hnames =>
    cases hs
    have hnames : ofStatement s = [] := by simpa using hnames
    refine fits_expression_of_fits_unlabeled hw h
      (fits_expression_of_unlabeled hw (fits_unlabeled hw h) ?_ ?_)
    · intro k d sp ds hs e he x v hx
      exact not_isMarkupValue_of_declarator? hs he hx (by simp [hnames])
    · intro sp e hs x v hx
      rw [← Bool.not_eq_true]
      intro hv
      have hm : (x, v) ∈ ofStatement s := by
        unfold ofStatement
        rw [hs]
        exact Option.mem_toList.2 (Option.filter_eq_some_iff.2 ⟨hx, hv⟩)
      rw [hnames] at hm
      cases hm
  · split at hs
    · next k d sp ds _ =>
      split at hs
      · cases hs
      · cases hs
        exact hkept k d sp ds _ (fun _ _ _ _ _ _ => rfl) rfl
    · next l sl k d sp ds _ =>
      split at hs
      · cases hs
      · cases hs
        have hk : w.isKind (.labeled l) = false :=
          isKind_of_not_isMarkupValue (n := mk (.labeled l) sl []) hw rfl
        rw [fits_mk, fitsList_iff, hk]
        refine ⟨fun h => (Bool.false_ne_true h).elim, fun j e he => ?_⟩
        obtain rfl := List.mem_singleton.1 (List.mem_of_getElem? he)
        exact hkept k d sp ds _ (fun _ _ _ _ _ _ => rfl) rfl
    · cases hs

/-- Of the last statement of a component nothing is removed that shows
    markup. -/
theorem fits_last_withoutMarkup (hw : w.Lifts) {s s' : Node} (h : s.fits w false .last = true)
    (hs : withoutMarkup s = some s') : s'.fits w false .last = true := by
  by_cases hr : s.kind = .returnStatement
  · obtain ⟨k, sp, ps⟩ := s
    obtain rfl : k = .returnStatement := hr
    cases hs
    exact h
  · -- Anything but a return stands there like a statement without markup.
    refine fits_of_fits_expression hw (fits_withoutMarkup hw ?_ hs) _
    refine fits_of_fits_expression hw ?_ _
    refine fits_expression_of_parts hw h (by simp) fun j p _ => .inr ?_
    generalize s.parts.map kind = ks
    generalize s.kind = k at hr
    unfold Spot.part
    split
    case h_9 => exact (hr rfl).elim
    all_goals simp

end MarkupTable

/-! ### Components -/

namespace Node

theorem heldNamesList_eq (ns : List Node) : heldNamesList ns = ns.flatMap heldNames := by
  induction ns with
  | nil => rfl
  | cons n ns ih => rw [heldNamesList, ih, List.flatMap_cons]

theorem fitsBody_iff {l : Bool} {ss : List Node} : fitsBody w l ss = true ↔
    (∀ s ∈ ss.dropLast, s.fits w l .statement = true) ∧
      ∀ s, ss.getLast? = some s → s.fits w l .last = true := by
  induction ss with
  | nil => simp [fitsBody]
  | cons s ss ih =>
    cases ss with
    | nil => simp [fitsBody]
    | cons s' ss =>
      rw [fitsBody, Bool.and_eq_true, ih]
      · simp [and_assoc]
      · exact List.cons_ne_nil _ _

end Node

namespace MarkupTable

/-- What is held by the markup that a statement gives to names is held by the
    statement. -/
theorem mem_heldNames_of_mem_ofStatement {s v : Node} {x y : Text} (hm : (x, v) ∈ ofStatement s)
    (hy : y ∈ v.heldNames) : y ∈ s.heldNames := by
  have hu : y ∈ s.unlabeled.heldNames → y ∈ s.heldNames := by
    unfold unlabeled
    split
    · exact fun h => List.mem_append_left _ h
    · exact id
  refine hu ?_
  rcases (mem_ofStatement hm).2 with ⟨k, d, sp, ds, e, hs, he, hx⟩ | ⟨sp, e, hs, hx⟩
  · have hy : y ∈ e.heldNames := by
      unfold declarator? at hx
      split at hx
      · split at hx
        · cases hx
        · cases hx
          simp [heldNames, heldNamesList, hy]
      · cases hx
    rw [hs]
    show y ∈ heldNamesList ds
    rw [heldNamesList_eq]
    exact List.mem_flatMap.2 ⟨e, he, hy⟩
  · have hy : y ∈ e.heldNames := by
      unfold assignment? at hx
      split at hx
      · cases hx
        simp [heldNames, heldNamesList, hy]
      · cases hx
    rw [hs]
    exact List.mem_append_left _ hy

/-- Filling the holes of the statements of a component, and the return. -/
theorem Fits.fitsBody_fill {t : MarkupTable} (hw : w.Lifts) (ht : t.Fits w) {ss : List Node}
    (h : fitsBody w false ss = true) (hheld : ∀ y ∈ heldNamesList ss, Holds w t.value? y) :
    fitsBody w false (substituteList t.resolve (Component.fillLast t ss)) = true := by
  have hfill (s : Node) (spot : Spot) (hs : ∀ y ∈ s.heldNames, Holds w t.value? y)
      (h : s.fits w false spot = true) : (s.substitute t.resolve).fits w false spot = true :=
    fits_substitute hw (fun x v hv => (ht.resolveWithin hw hv).1) s
      (fun y hy => holds_resolveWithin (hs y hy) _ _) spot h
  induction ss with
  | nil => rfl
  | cons s ss ih =>
    simp only [heldNamesList, List.mem_append, or_imp, forall_and] at hheld
    cases ss with
    | nil =>
      rw [Component.fillLast, substituteList, substituteList, fitsBody]
      rw [fitsBody] at h
      unfold Component.fillReturn
      split
      · next sp e =>
        cases hv : e.identifier?.bind t.resolve with
        | none => exact hfill _ _ hheld.1 h
        | some v =>
          obtain ⟨x, -, hv⟩ := Option.bind_eq_some_iff.1 hv
          obtain ⟨hfits, hnames⟩ := ht.resolveWithin hw hv
          have hk : w.isKind .returnStatement = false :=
            isKind_of_not_isMarkupValue (n := Node.mk .returnStatement sp []) hw rfl
          refine hfill _ _ ?_ ?_
          · simp only [heldNames, heldNamesList, List.append_nil]
            exact fun y hy => hnames y (List.mem_append_right _ hy)
          · simpa [fits_mk, hk, fitsList, Spot.part, Kind.isAttribute] using hfits
      · exact hfill _ _ hheld.1 h
    | cons s' ss =>
      obtain ⟨hs, hss⟩ : s.fits w false .statement = true ∧ fitsBody w false (s' :: ss) = true :=
        Bool.and_eq_true_iff.1 h
      have ih := ih hss hheld.2
      have hlast : ∃ r rs, Component.fillLast t (s' :: ss) = r :: rs := by
        cases ss <;> exact ⟨_, _, rfl⟩
      obtain ⟨r, rs, hr⟩ := hlast
      rw [hr] at ih
      have hcons : substituteList t.resolve (Component.fillLast t (s :: s' :: ss)) =
          s.substitute t.resolve :: substituteList t.resolve (r :: rs) := by
        rw [← hr]
        rfl
      rw [hcons]
      exact Bool.and_eq_true_iff.2 ⟨hfill _ _ hheld.1 hs, ih⟩

end MarkupTable

namespace Component

/-- The names of a component that holes hold elsewhere than among the parts of
    markup, or that variables hold. -/
def heldNames (c : Component) : List Text :=
  heldNamesList (c.module ++ c.body) ++ c.markupTable.flatMap fun (_, v) => v.identifier?.toList

theorem markupTable_fits (hw : w.Lifts) {c : Component} (h : c.fits w false = true)
    (hheld : ∀ y ∈ c.heldNames, Holds w c.markupTable.value? y) : c.markupTable.Fits w := by
  obtain ⟨hmodule, hbody⟩ := Bool.and_eq_true_iff.1 h
  have hmem (x : Text) (v : Node) (hm : (x, v) ∈ c.markupTable) :
      ∃ s ∈ c.module ++ c.body, s.fits w false .statement = true ∧
        (x, v) ∈ MarkupTable.ofStatement s := by
    rcases List.mem_append.1 hm with hm | hm <;> obtain ⟨s, hs, hx⟩ := List.mem_flatMap.1 hm
    · obtain ⟨j, hj⟩ := List.getElem?_of_mem hs
      exact ⟨s, List.mem_append_left _ hs, fitsList_iff.1 hmodule j s hj, hx⟩
    · exact ⟨s, List.mem_append_right _ ((List.dropLast_sublist _).subset hs),
        (fitsBody_iff.1 hbody).1 s hs, hx⟩
  refine ⟨fun x v hm => ?_, fun x v hm y hy => hheld y ?_⟩
  · obtain ⟨s, -, hs, hx⟩ := hmem x v hm
    exact MarkupTable.fits_of_mem_ofStatement hw hs hx
  · obtain ⟨s, hs, -, hx⟩ := hmem x v hm
    rcases List.mem_append.1 hy with hy | hy
    · exact List.mem_append_right _ (List.mem_flatMap.2 ⟨(x, v), hm, hy⟩)
    · refine List.mem_append_left _ ?_
      rw [heldNamesList_eq]
      exact List.mem_flatMap.2 ⟨s, hs, MarkupTable.mem_heldNames_of_mem_ofStatement hx hy⟩

/-- The statements that are left of those of a component. -/
theorem fits_filterMap_withoutMarkup (hw : w.Lifts) {ss : List Node}
    (h : fitsBody w false ss = true) :
    (∀ s ∈ (ss.filterMap MarkupTable.withoutMarkup).dropLast, s.fits w false .expression = true) ∧
      ∀ s, (ss.filterMap MarkupTable.withoutMarkup).getLast? = some s →
        s.fits w false .last = true := by
  induction ss with
  | nil => simp
  | cons s ss ih =>
    cases ss with
    | nil =>
      rw [List.filterMap_cons, List.filterMap_nil]
      cases hs : MarkupTable.withoutMarkup s with
      | none => simp
      | some s' => simpa using MarkupTable.fits_last_withoutMarkup hw h hs
    | cons s' ss =>
      obtain ⟨hfits, hss⟩ : s.fits w false .statement = true ∧ fitsBody w false (s' :: ss) = true :=
        Bool.and_eq_true_iff.1 h
      have ih := ih hss
      rw [List.filterMap_cons]
      cases hs : MarkupTable.withoutMarkup s with
      | none => exact ih
      | some r =>
        have hr := MarkupTable.fits_withoutMarkup hw hfits hs
        dsimp only
        generalize (s' :: ss).filterMap MarkupTable.withoutMarkup = rs at ih
        cases rs with
        | nil => simpa using fits_of_fits_expression hw hr _
        | cons r' rs =>
          rw [List.dropLast_cons_cons, List.getLast?_cons_cons]
          refine ⟨fun e he => ?_, ih.2⟩
          rcases List.mem_cons.1 he with rfl | he
          · exact hr
          · exact ih.1 e he

/-- Showing the markup variables of a component leaves content in what it
    returns only, if what is held may stand in a hole. -/
theorem fits_inlineMarkup (hw : w.Lifts) {c : Component} (h : c.fits w false = true)
    (hheld : ∀ y ∈ c.heldNames, Holds w c.markupTable.value? y) :
    (∀ s ∈ c.inlineMarkup.module ++ c.inlineMarkup.body.dropLast,
        s.fits w false .expression = true) ∧
      ∀ e, c.inlineMarkup.returned? = some e → e.fits w false .shown = true := by
  have ht := markupTable_fits hw h hheld
  obtain ⟨hmodule, hbody⟩ := Bool.and_eq_true_iff.1 h
  have hmoduleHeld : ∀ y ∈ heldNamesList c.module, Holds w c.markupTable.value? y := by
    intro y hy
    refine hheld y (List.mem_append_left _ ?_)
    rw [heldNamesList_eq, List.flatMap_append, ← heldNamesList_eq]
    exact List.mem_append_left _ hy
  have hbodyHeld : ∀ y ∈ heldNamesList c.body, Holds w c.markupTable.value? y := by
    intro y hy
    refine hheld y (List.mem_append_left _ ?_)
    rw [heldNamesList_eq, List.flatMap_append, ← heldNamesList_eq c.body]
    exact List.mem_append_right _ hy
  have hbody := fits_filterMap_withoutMarkup hw (ht.fitsBody_fill hw hbody hbodyHeld)
  have hmodule := fitsList_substituteList (r := c.markupTable.resolve)
    (fun n _ => fits_substitute hw (fun x v hv => (ht.resolveWithin hw hv).1) n)
    (fun y hy => MarkupTable.holds_resolveWithin (hmoduleHeld y hy) _ _) hmodule
  refine ⟨fun s hs => ?_, fun e he => ?_⟩
  · rcases List.mem_append.1 hs with hs | hs
    · obtain ⟨s', hs', hs⟩ := List.mem_filterMap.1 hs
      obtain ⟨j, hj⟩ := List.getElem?_of_mem hs'
      exact MarkupTable.fits_withoutMarkup hw (fitsList_iff.1 hmodule j s' hj) hs
    · exact hbody.1 s hs
  · obtain ⟨s, hs, he⟩ := Option.bind_eq_some_iff.1 he
    have hlast := hbody.2 s hs
    unfold returnValue? at he
    split at he
    · unfold present? at he
      split at he
      · cases he
      · cases he
        exact fitsList_iff.1 (fits_mk.1 hlast).2 0 e rfl
    · cases he

end Component

end Unhook
