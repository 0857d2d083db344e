import Unhook.Proofs.Skeleton

/-!
# Lowering as a whole

The steps of lowering put together: attributes are renamed, lists become
blocks, then choices do. Renaming keeps skeletons, so what is said of the lists
of a component and of what is left without them can be said of the component as
it was before all of it.

* `Component.fits`: content stands where it may, in all statements;
* `Component.liftable`: content stands where lowering takes it from;
* `Component.lowerMarkup_fits_iff`: lowering leaves content where it may stand
  if and only if the component was liftable.
-/

namespace Unhook

open Node

variable {w : Content}

/-- An attribute is the key after renaming if and only if it was before. -/
theorem Attribute.rename_eq_key (name : Text) :
    ((Attribute.rename name).1 = none ∧ (Attribute.rename name).2 = "key") ↔ name = "key" := by
  unfold rename
  split
  · next h =>
    subst h
    decide
  · split
    · next e he =>
      refine ⟨fun h => (Option.some_ne_none _ h.1).elim, fun h => ?_⟩
      have hkey : event? "key" = none := by decide
      rw [h, hkey] at he
      cases he
    · exact ⟨fun h => h.2, fun h => ⟨rfl, h⟩⟩

namespace Node

theorem renameAttributesList_eq (ns : List Node) :
    renameAttributesList ns = ns.map renameAttributes := by
  induction ns with
  | nil => rfl
  | cons n ns ih => rw [renameAttributesList, ih, List.map_cons]

/-- Renaming attributes keeps the skeleton. -/
theorem skeleton_renameAttributes (n : Node) : n.renameAttributes.skeleton w = n.skeleton w := by
  induction n with
  | mk k s ps ih =>
    have hps : (renameAttributesList ps).map (skeleton w) = ps.map (skeleton w) := by
      rw [renameAttributesList_eq, List.map_map]
      exact List.map_congr_left ih
    unfold renameAttributes
    split
    · next h =>
      cases h
      rw [skeleton_mk, skeleton_mk, hps]
      simp only [Kind.skeleton, Attribute.rename_eq_key, true_and]
    · next h =>
      cases h
      rw [skeleton_mk, skeleton_mk, hps]

/-- What is said of trees with one skeleton: their lists, and what is left
    without these, have one skeleton each. -/
def UnlistedAlike (w : Content) (n : Node) : Prop :=
  ∀ m : Node, n.skeleton w = m.skeleton w → n.unlisted.skeleton w = m.unlisted.skeleton w ∧
    n.lists.map (Each.Pieces.skeleton w) = m.lists.map (Each.Pieces.skeleton w)

theorem unlistedList_congr {ns ms : List Node} (hns : ∀ n ∈ ns, UnlistedAlike w n)
    (h : ns.map (skeleton w) = ms.map (skeleton w)) :
    (unlistedList ns).map (skeleton w) = (unlistedList ms).map (skeleton w) ∧
      (listsList ns).map (Each.Pieces.skeleton w) =
        (listsList ms).map (Each.Pieces.skeleton w) := by
  induction ns generalizing ms with
  | nil =>
    obtain rfl := List.map_eq_nil_iff.1 h.symm
    exact ⟨rfl, rfl⟩
  | cons n ns ih =>
    obtain ⟨m, ms, rfl, hm, hms⟩ := List.map_eq_cons_iff.1 h.symm
    obtain ⟨hn, hn'⟩ := hns n List.mem_cons_self m hm.symm
    obtain ⟨hns, hns'⟩ := ih (fun n hn => hns n (List.mem_cons_of_mem _ hn)) hms.symm
    simp [unlistedList, listsList, hn, hn', hns, hns']

theorem unlisted_congr (n : Node) : UnlistedAlike w n := by
  induction n with
  | mk k s ps ih =>
    rintro ⟨k', s', qs⟩ h
    rw [skeleton_mk, skeleton_mk, mk.injEq] at h
    obtain ⟨hps, hps'⟩ := unlistedList_congr ih h.2.2
    have hn : (mk k s (unlistedList ps)).skeleton w = (mk k' s' (unlistedList qs)).skeleton w := by
      rw [skeleton_mk, skeleton_mk, h.1, hps]
    have hlist : (mk k s (unlistedList ps)).list?.map (Each.Pieces.skeleton w) =
        (mk k' s' (unlistedList qs)).list?.map (Each.Pieces.skeleton w) := by
      rw [← list?_skeleton, hn, list?_skeleton]
    rw [unlisted, unlisted, lists, lists, List.map_append, List.map_append, hps']
    cases hl : (mk k s (unlistedList ps)).list? with
    | none =>
      rw [hl, Option.map_none, eq_comm, Option.map_eq_none_iff] at hlist
      exact ⟨by simpa [hlist] using hn, by simp [hlist]⟩
    | some p =>
      rw [hl, Option.map_some, eq_comm, Option.map_eq_some_iff] at hlist
      obtain ⟨q, hq, hqp⟩ := hlist
      exact ⟨by simp [hq], by simp [hq, hqp]⟩

/-- The statements of a component, of which the last one is the return, with
    content where it may stand. -/
def fitsBody (w : Content) (lifting : Bool) : List Node → Bool
  | [] => true
  | [s] => s.fits w lifting .last
  | s :: ss => s.fits w lifting .statement && fitsBody w lifting ss

theorem fitsBody_eq (l : Bool) (i n : Nat) (ss : List Node) (h : i + ss.length = n) :
    fitsBody w l ss = fitsList w l (fun j => if j + 1 = n then .last else .statement) i ss := by
  induction ss generalizing i with
  | nil => rfl
  | cons s ss ih =>
    cases ss with
    | nil =>
      have hi : i + 1 = n := h
      simp [fitsBody, fitsList, hi]
    | cons s' ss =>
      have hss : i + 1 + (s' :: ss).length = n := by
        rw [← h, List.length_cons (a := s)]
        omega
      have hi : i + 1 ≠ n := by
        rw [List.length_cons] at hss
        omega
      rw [fitsList, if_neg hi, ← ih (i + 1) hss]
      rfl

end Node

namespace Component

/-- Whether all of some content of the module and of the component stands where
    it may. -/
def fits (w : Content) (lifting : Bool) (c : Component) : Bool :=
  fitsList w lifting (fun _ => .statement) 0 c.module && fitsBody w lifting c.body

/-- Whether some content stands where lowering takes it from: it fits into the
    pieces of every list, and into what is left when lists are taken for
    placeholders. -/
def liftable (w : Content) (c : Component) : Bool :=
  (listsList (c.module ++ c.body)).all (·.fits w) &&
    { c with module := unlistedList c.module, body := unlistedList c.body }.fits w true

theorem fits_eq (l : Bool) (c : Component) : c.fits w l =
    (fitsList w l (fun _ => .statement) 0 c.module &&
      fitsList w l (fun j => if j + 1 = c.body.length then .last else .statement) 0 c.body) := by
  rw [fits, fitsBody_eq l 0 c.body.length c.body (Nat.zero_add _)]

/-- Whether content fits is decided by the skeletons of the statements. -/
theorem fits_congr (hw : w.Lifts) {c d : Component}
    (hmodule : c.module.map (skeleton w) = d.module.map (skeleton w))
    (hbody : c.body.map (skeleton w) = d.body.map (skeleton w)) (l : Bool) :
    c.fits w l = d.fits w l := by
  have hlength : c.body.length = d.body.length := by simpa using congrArg List.length hbody
  rw [fits_eq, fits_eq, hlength, fitsList_congr hw hmodule, fitsList_congr hw hbody]

/-- Content can be lifted if and only if it can be after attributes are
    renamed. -/
theorem liftable_renameAttributes (hw : w.Lifts) (c : Component) :
    c.renameAttributes.liftable w = c.liftable w := by
  have hskeleton (ns : List Node) :
      (renameAttributesList ns).map (skeleton w) = ns.map (skeleton w) := by
    rw [renameAttributesList_eq, List.map_map]
    exact List.map_congr_left fun n _ => skeleton_renameAttributes n
  have hunlisted (ns : List Node) := unlistedList_congr (fun n _ => unlisted_congr n) (hskeleton ns)
  have hpieces (ps : List Each.Pieces) :
      ps.all (·.fits w) = (ps.map (Each.Pieces.skeleton w)).all (·.fits w) := by
    simp only [List.all_map, Function.comp_def, Each.Pieces.fits_skeleton hw]
  have hlists : (listsList (c.renameAttributes.module ++ c.renameAttributes.body)).map
      (Each.Pieces.skeleton w) = (listsList (c.module ++ c.body)).map (Each.Pieces.skeleton w) := by
    rw [← (hunlisted (c.module ++ c.body)).2]
    simp [renameAttributes, renameAttributesList_eq]
  rw [liftable, liftable, hpieces, hlists, ← hpieces]
  exact congrArg _ (fits_congr hw (hunlisted _).1 (hunlisted _).1 true)

/-- Lowering the lists of a component adds shapes and leaves skeletons without
    lists. -/
theorem shapeLists_fits (hw : w.Lifts) {m : Nat}
    (hm : ∀ i < m, w.isKind (.identifier (Block.placeholder i)) =
      w.isKind (.identifier (Block.placeholder 0))) (c : Component) (ss : List Shape) :
    ∃ new, (c.shapeLists ss).2 = ss ++ new ∧ ((ss ++ new).length ≤ m →
      ((∀ x ∈ new, x.fits w = true) ∧ (c.shapeLists ss).1.fits w true = true ↔
        c.liftable w = true)) := by
  obtain ⟨new, hnew, hmodule⟩ := shapeListsList_fits
    (fun n (_ : n ∈ c.module) => Node.shapeLists_fits hw hm c.markupNames n) ss
  obtain ⟨new', hnew', hbody⟩ := shapeListsList_fits
    (fun n (_ : n ∈ c.body) => Node.shapeLists_fits hw hm c.markupNames n) (ss ++ new)
  refine ⟨new ++ new', ?_, fun h => ?_⟩
  · simp only [shapeLists, hnew, hnew', List.append_assoc]
  · rw [← List.append_assoc] at h
    obtain ⟨hmodule, hmodule'⟩ := hmodule (by simp at h ⊢; omega)
    obtain ⟨hbody, hbody'⟩ := hbody h
    have hfits := fits_congr hw (c := (c.shapeLists ss).1)
      (d := { c with module := unlistedList c.module, body := unlistedList c.body })
      hmodule (by simpa [shapeLists, hnew] using hbody) true
    rw [hfits, liftable, Bool.and_eq_true, List.all_eq_true]
    simp only [List.mem_append, or_imp, forall_and, hmodule', hbody', listsList_eq,
      List.flatMap_append]

/-- Lowering the choices of a component makes all content fit if and only if it
    fits, with lifting, before. -/
theorem shapeChoices_fits (hw : w.Lifts) (c : Component) (ss : List Shape) :
    ∃ new, (c.shapeChoices ss).2 = ss ++ new ∧
      ((∀ x ∈ new, x.fits w = true) ∧ (c.shapeChoices ss).1.fits w false = true ↔
        c.fits w true = true) := by
  obtain ⟨new, hnew, hmodule⟩ := shapeChoicesList_fits
    (fun n (_ : n ∈ c.module) => Node.shapeChoices_fits hw c.markupNames n) false ss
  obtain ⟨new', hnew', hbody⟩ := shapeChoicesList_fits
    (fun n (_ : n ∈ c.body) => Node.shapeChoices_fits hw c.markupNames n) false (ss ++ new)
  have hlength : (shapeChoicesList c.markupNames false c.body (ss ++ new)).1.length =
      c.body.length := by
    simpa using congrArg List.length (kinds_shapeChoicesList c.markupNames false c.body (ss ++ new))
  refine ⟨new ++ new', ?_, ?_⟩
  · simp only [shapeChoices, hnew, hnew', List.append_assoc]
  · rw [fits_eq, fits_eq, Bool.and_eq_true, Bool.and_eq_true]
    simp only [shapeChoices, hnew, hlength, List.mem_append, or_imp, forall_and]
    have hmodule := hmodule (fun _ => .statement) 0 (by simp)
    have hbody := hbody (fun j => if j + 1 = c.body.length then .last else .statement) 0
      (by intro j h; split at h <;> cases h)
    rw [Bool.not_false] at hmodule hbody
    rw [← hmodule, ← hbody]
    exact and_and_and_comm

/-- Lowering a component without blocks leaves content where it may stand, in
    statements and shapes, if and only if it stood where lowering takes it from.
    Numbers of placeholders are
    counted on to be recognized up to the number of shapes. -/
theorem lowerMarkup_fits_iff (hw : w.Lifts) {c : Component} (hb : c.blocks = [])
    (hm : ∀ i < c.shapes.length, w.isKind (.identifier (Block.placeholder i)) =
      w.isKind (.identifier (Block.placeholder 0))) :
    (∀ x ∈ c.shapes, x.fits w = true) ∧ c.lowerMarkup.fits w false = true ↔
      c.liftable w = true := by
  let d := c.renameAttributes.findMarkupNames
  let ss := c.blocks.map Shape.given
  obtain ⟨new, hnew, hlists⟩ := shapeLists_fits hw hm d ss
  let e := (d.shapeLists ss).1.findMarkupNames
  obtain ⟨new', hnew', hchoices⟩ := shapeChoices_fits hw e (ss ++ new)
  have hshapes : c.shapes = ss ++ new ++ new' := by
    rw [← hnew', ← hnew]
    rfl
  have hlowered : c.lowerMarkup = (e.shapeChoices (ss ++ new)).1 := by
    have hblocks : d.blocks = ss.map Shape.block := by
      rw [List.map_map]
      exact (List.map_id _).symm
    have he : e.blocks = (ss ++ new).map Shape.block := by
      rw [← hnew]
      rfl
    rw [lowerMarkup, lowerLists_written hblocks, lowerChoices_written he]
  have hgiven : ∀ x ∈ ss, x.fits w = true := by
    intro x hx
    rw [List.mem_map, hb] at hx
    obtain ⟨b, hb, -⟩ := hx
    cases hb
  have hlists := hlists (by rw [hshapes]; simp)
  have hd : d.liftable w = c.liftable w := liftable_renameAttributes hw c
  rw [hshapes, hlowered, ← hd, ← hlists]
  have he : (d.shapeLists ss).1.fits w true = e.fits w true := rfl
  rw [he, ← hchoices]
  simp only [List.mem_append, or_imp, forall_and, and_assoc]
  exact and_iff_right hgiven

end Component

end Unhook
