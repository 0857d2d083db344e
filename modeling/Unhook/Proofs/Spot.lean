import Mathlib.Data.List.Basic
import Unhook.Proofs.Shape

/-!
# Where markup stands

Markup can be written out only where it is shown by itself: as a part of other
markup, as what the component returns, as the value of a variable that is shown
later. The places where a node can stand are its *spots*, and which spot a part
has follows from the spot and the kind of the node it is a part of
(`Spot.part`). *Content*, be it markup or placeholders, fits into a tree when
every piece of it stands at a spot that it may stand at (`Node.fits`).

Lowering moves content out of trees and into the shapes of blocks. With
`lifting` it is said of a tree before that its content will fit afterwards:
then the content of a hole may also stand in the branches of a choice.

* `Node.fits`: content stands where it may;
* `Node.shapeChoices_fits`: choices are lowered so that all content fits if and
  only if it fits with lifting before.
-/

namespace Unhook

/-- Where a node stands. -/
inductive Spot
  /-- A statement of the module or the component. -/
  | statement
  /-- Such a statement, but for its label. -/
  | unlabeled
  /-- A variable that such a statement declares. -/
  | declarator
  /-- The expression of such a statement. -/
  | assignment
  /-- The last statement of the component. -/
  | last
  /-- A part of markup, the value of a variable, or what is returned. -/
  | shown
  /-- What a hole holds. -/
  | hole
  /-- A branch of a choice. -/
  | branch
  /-- Anywhere else. -/
  | expression
  deriving DecidableEq

/-- The spot of the part at `i` of a node of kind `k` with parts of the kinds
    `ks`. When choices are lifted, the branches of a choice in a hole count as
    such. -/
def Spot.part (lifting : Bool) (spot : Spot) (k : Kind) (ks : List Kind) (i : Nat) : Spot :=
  match k, ks with
  | .element, _ | .fragment, _ => shown
  | .container, [_] => hole
  | .labeled _, [_] => if spot = statement then unlabeled else expression
  | .declaration _ _, _ => if spot = statement ∨ spot = unlabeled then declarator else expression
  | .expressionStatement, [_] =>
    if spot = statement ∨ spot = unlabeled then assignment else expression
  | .declarator _, [.binding _, _, _] => if spot = declarator ∧ i = 2 then shown else expression
  | .assign _, [.target _, _] => if spot = assignment ∧ i = 1 then shown else expression
  | .returnStatement, [_] => if spot = last then shown else expression
  | .conditional, [_, _, _] | .binary .and, [_, _] =>
    if (spot = branch ∨ spot = hole ∧ lifting) ∧ i ≠ 0 then branch else expression
  | _, _ => expression

/-- Whether nodes of this kind, with parts of the given kinds, are choices: a
    conditional or an `&&`. -/
def Kind.isChoice : Kind → List Kind → Bool
  | .conditional, [_, _, _] | .binary .and, [_, _] => true
  | _, _ => false

/-- A choice is a conditional with its three parts, or `&&` with its two. -/
theorem Kind.eq_of_isChoice {k : Kind} {ps : List Node} (h : k.isChoice (ps.map Node.kind) = true) :
    (k = .conditional ∧ ∃ t a b, ps = [t, a, b]) ∨ k = .binary .and ∧ ∃ t a, ps = [t, a] := by
  unfold isChoice at h
  split at h
  · next hps => exact .inl ⟨rfl, List.length_eq_three.1 (by simpa using congrArg List.length hps)⟩
  · next hps => exact .inr ⟨rfl, List.length_eq_two.1 (by simpa using congrArg List.length hps)⟩
  · cases h

/-- Only in a choice does it matter that an expression is a branch, or in a
    hole. -/
theorem Spot.part_of_not_isChoice {k : Kind} {ks : List Kind} (h : k.isChoice ks = false)
    {spot : Spot} (hs : spot = branch ∨ spot = hole) (l l' : Bool) :
    spot.part l k ks = expression.part l' k ks := by
  funext i
  rcases hs with rfl | rfl
  all_goals
    unfold part
    split
  all_goals first | rfl | cases h

/-- Content of trees: the kinds of nodes it consists of, and the spots at which
    these may stand. -/
structure Content where
  isKind : Kind → Bool
  mayStand : Spot → Bool

namespace Content

/-- Elements and fragments. -/
def markup : Content where
  isKind
    | .element | .fragment => true
    | _ => false
  mayStand
    | .shown | .branch => true
    | _ => false

/-- Names that stand for blocks. A hole may hold one. -/
def placeholder : Content where
  isKind
    | .identifier x => (Block.index? x).isSome
    | _ => false
  mayStand
    | .shown | .branch | .hole => true
    | _ => false

end Content

namespace Node

mutual

/-- Whether all of some content of a tree at the given spot stands where it
    may. Attributes are not lifted from. -/
def fits (w : Content) (lifting : Bool) (spot : Spot) : Node → Bool
  | mk k _ ps =>
    (!w.isKind k || w.mayStand spot) &&
      fitsList w (lifting && !k.isAttribute) (spot.part lifting k (ps.map kind)) 0 ps

/-- Whether all of some content of trees, of which the one at `i` has the spot
    `at i`, stands where it may. -/
def fitsList (w : Content) (lifting : Bool) (spots : Nat → Spot) (i : Nat) : List Node → Bool
  | [] => true
  | n :: ns => n.fits w lifting (spots i) && fitsList w lifting spots (i + 1) ns

end

end Node

/-- The expression that a key is written from, given the value of its
    attribute. -/
def Each.keyExpression? : Node → Option Node
  | .mk .container _ [e] => if e.kind = .emptyHole then none else some e
  | _ => none

/-- Whether all of some content of a shape stands where it may. Of a block that
    was there before that is not known. -/
def Shape.fits (w : Content) : Shape → Bool
  | given _ => false
  | each _ collection item key root =>
    collection.fits w false .expression && item.fits w false .expression &&
      (key.bind Each.keyExpression?).all (·.fits w false .expression) && root.fits w false .shown
  | choice _ e => e.fits w false .branch

/-! ### Content that can be lifted -/

theorem Shape.fits_each (w : Content) (names : List Text) (collection item : Node)
    (key : Option Node) (root : Node) : (each names collection item key root).fits w =
      (collection.fits w false .expression && item.fits w false .expression &&
        (key.bind Each.keyExpression?).all (·.fits w false .expression) &&
        root.fits w false .shown) := rfl

/-- A kind without the names that do not matter for some content. -/
def Kind.skeleton (w : Content) : Kind → Kind
  | .identifier x => .identifier (if w.isKind (.identifier x) then Block.placeholder 0 else [])
  | .attribute space name =>
    .attribute none (if space = none ∧ name = "key" then "key" else [])
  | k => k

namespace Content

/-- Content that choices show, and that can stand in a branch if it can stand in
    a hole, as it can unless it is markup. Names are content only if they stand
    for blocks. -/
structure Lifts (w : Content) : Prop where
  skeleton (k : Kind) : w.isKind (k.skeleton w) = w.isKind k
  shows (names : List Text) (n : Node) : w.isKind n.kind = true → Choice.shows names n = true
  branch : w.mayStand .hole = true → w.mayStand .branch = true
  hole (n : Node) : w.isKind n.kind = true → n.isMarkup = false → w.mayStand .hole = true
  index (x : Text) : w.isKind (.identifier x) = true → (Block.index? x).isSome = true
  spots (spot : Spot) : w.mayStand spot = true → spot = .shown ∨ spot = .hole ∨ spot = .branch

theorem lifts_markup : markup.Lifts where
  skeleton k := by cases k <;> rfl
  shows names n h := by
    obtain ⟨k, s, ps⟩ := n
    cases k <;> first | rfl | cases h
  branch h := by cases h
  hole n h hn := by
    obtain ⟨k, s, ps⟩ := n
    cases k with
    | element | fragment => cases hn
    | _ => cases h
  index x h := by cases h
  spots spot h := by cases spot <;> simp [markup] at h ⊢

theorem lifts_placeholder : placeholder.Lifts where
  skeleton k := by
    cases k with
    | identifier x =>
      cases h : placeholder.isKind (.identifier x)
      · simp only [Kind.skeleton, h]
        decide
      · simp only [Kind.skeleton, h]
        decide
    | _ => rfl
  shows names n h := by
    obtain ⟨k, s, ps⟩ := n
    cases k with
    | identifier x => exact Bool.or_eq_true_iff.2 (.inl h)
    | _ => cases h
  branch _ := rfl
  hole _ _ _ := rfl
  index x h := h
  spots spot h := by cases spot <;> simp [placeholder] at h ⊢

end Content

namespace Node

variable {w : Content} {names : List Text} {n : Node} {spot : Spot} {l : Bool}

theorem fits_mk {lifting : Bool} {k : Kind} {s : Span} {ps : List Node} :
    (mk k s ps).fits w lifting spot = true ↔ (w.isKind k = true → w.mayStand spot = true) ∧
      fitsList w (lifting && !k.isAttribute) (spot.part lifting k (ps.map kind)) 0 ps = true := by
  rw [fits, Bool.and_eq_true]
  refine and_congr_left fun _ => ?_
  cases w.isKind k <;> simp

theorem fitsList_iff {lifting : Bool} {spots : Nat → Spot} {i : Nat} {ns : List Node} :
    fitsList w lifting spots i ns = true ↔
      ∀ (j : Nat) (n : Node), ns[j]? = some n → n.fits w lifting (spots (i + j)) = true := by
  induction ns generalizing i with
  | nil => simp [fitsList]
  | cons n ns ih =>
    rw [fitsList, Bool.and_eq_true, ih]
    refine ⟨fun h j m hm => ?_, fun h => ⟨h 0 n rfl, fun j m hm => ?_⟩⟩
    · cases j with
      | zero => exact Option.some.inj hm ▸ h.1
      | succ j => exact Nat.add_right_comm i 1 j ▸ h.2 j m hm
    · exact Nat.add_right_comm i 1 j ▸ h (j + 1) m hm

/-- Of the part of an expression either the spot does not depend on where the
    expression stands, or it is no special one. -/
theorem part_expression (l : Bool) (spot : Spot) (k : Kind) (ks : List Kind) (i : Nat) :
    Spot.expression.part l k ks i = .expression ∨
      spot.part l k ks i = Spot.expression.part l k ks i := by
  unfold Spot.part
  split <;> simp

/-- Where content may not stand a node that fits is none. -/
theorem isKind_of_fits (hw : w.Lifts)
    (h : n.fits w l spot = true) (hs : ¬(spot = .shown ∨ spot = .hole ∨ spot = .branch)) :
    w.isKind n.kind = false := by
  obtain ⟨k, s, ps⟩ := n
  rw [fits_mk] at h
  rw [← Bool.not_eq_true]
  exact fun hk => hs (hw.spots spot (h.1 hk))

/-- What has no content where none may stand has none anywhere. -/
theorem fits_of_fits_expression (hw : w.Lifts)
    (h : n.fits w l .expression = true) (spot : Spot) : n.fits w l spot = true := by
  induction n generalizing l spot with
  | mk k s ps ih =>
    have hk : w.isKind k = false := isKind_of_fits hw h (by simp)
    rw [fits_mk, fitsList_iff] at h
    rw [fits_mk, fitsList_iff, hk]
    refine ⟨fun h => (Bool.false_ne_true h).elim, fun j n hn => ?_⟩
    have hp := h.2 j n hn
    rcases part_expression l spot k (ps.map kind) (0 + j) with he | he
    · exact ih n (List.mem_of_getElem? hn) (he ▸ hp) _
    · exact he ▸ hp

/-- An expression that shows no content has none to stand anywhere. -/
theorem isKind_of_not_shows (hw : w.Lifts) (names : List Text)
    (h : Choice.shows names n = false) : w.isKind n.kind = false := by
  rw [← Bool.not_eq_true]
  intro hk
  rw [hw.shows names n hk] at h
  cases h

/-- An expression that does not choose between pieces of content has no more of
    it in its parts when these count as branches. -/
theorem fitsList_branch_iff (hw : w.Lifts) (hl : Choice.isLowerable names n = false) :
    fitsList w false (Spot.branch.part false n.kind (n.parts.map kind)) 0 n.parts = true ↔
      fitsList w false (Spot.expression.part false n.kind (n.parts.map kind)) 0 n.parts = true := by
  induction n with
  | mk k s ps ih =>
    have hfits (a : Node) (ha : a ∈ ps) (hs : Choice.shows names a = false)
        (hl : Choice.isLowerable names a = false) :
        a.fits w false .branch = true ↔ a.fits w false .expression = true := by
      obtain ⟨k', s', ps'⟩ := a
      have hk : w.isKind k' = false := isKind_of_not_shows hw _ hs
      rw [fits_mk, fits_mk, hk]
      exact and_congr (by simp) (ih _ ha hl)
    dsimp only [kind_mk, parts_mk]
    cases hc : k.isChoice (ps.map kind) with
    | false => rw [Spot.part_of_not_isChoice hc (.inl rfl) false false]
    | true =>
      obtain ⟨rfl, t, a, b, rfl⟩ | ⟨rfl, t, a, rfl⟩ := Kind.eq_of_isChoice hc
      · simp only [Choice.isLowerable, Bool.or_eq_false_iff] at hl
        have ha := hfits a (by simp) hl.1.1.1 hl.1.2
        have hb := hfits b (by simp) hl.1.1.2 hl.2
        simp [fitsList, Spot.part, ha, hb]
      · simp only [Choice.isLowerable, Bool.or_eq_false_iff] at hl
        have ha := hfits a (by simp) hl.1 hl.2
        simp [fitsList, Spot.part, ha]

/-- What stands in a hole from which choices are lifted may stand in a branch. -/
theorem fits_hole_lifting (hw : w.Lifts) (n : Node) : n.fits w true .hole = true ↔
    (w.isKind n.kind = true → w.mayStand .hole = true) ∧ n.fits w true .branch = true := by
  obtain ⟨k, s, ps⟩ := n
  have hpart : Spot.hole.part true k (ps.map kind) = Spot.branch.part true k (ps.map kind) := by
    funext i
    unfold Spot.part
    split <;> simp
  rw [fits_mk, fits_mk, hpart, kind_mk]
  exact ⟨fun ⟨h, hps⟩ => ⟨h, fun hk => hw.branch (h hk), hps⟩, fun ⟨h, _, hps⟩ => ⟨h, hps⟩⟩

/-- What stands in a hole that holds no choice may stand in a branch. -/
theorem fits_hole_of_not_isLowerable (hw : w.Lifts)
    (hl : Choice.isLowerable names n = false) : n.fits w false .hole = true ↔
      (w.isKind n.kind = true → w.mayStand .hole = true) ∧ n.fits w false .branch = true := by
  have hparts := fitsList_branch_iff hw hl
  obtain ⟨k, s, ps⟩ := n
  have hpart : Spot.hole.part false k (ps.map kind) = Spot.expression.part false k (ps.map kind) := by
    funext i
    unfold Spot.part
    split <;> simp
  rw [fits_mk, fits_mk, hpart, kind_mk]
  exact ⟨fun ⟨h, hps⟩ => ⟨h, fun hk => hw.branch (h hk), hparts.2 hps⟩,
    fun ⟨h, _, hps⟩ => ⟨h, hparts.1 hps⟩⟩

/-! ### Choices -/

theorem kinds_shapeChoicesList (names : List Text) (a : Bool) (ns : List Node)
    (ss : List Shape) : (shapeChoicesList names a ns ss).1.map kind = ns.map kind := by
  induction ns generalizing ss with
  | nil => rfl
  | cons n ns ih =>
    rw [shapeChoicesList, List.map_cons, kind_shapeChoices, ih, List.map_cons]

/-- What is said of lowering the choices of a node: it adds shapes, and content
    fits in these and in what is left if and only if it fits, with lifting, in
    the node. -/
def ChoicesFit (w : Content) (names : List Text) (n : Node) : Prop :=
  ∀ a ss, ∃ new, (n.shapeChoices names a ss).2 = ss ++ new ∧
    ∀ spot, (spot = .hole → a = true) →
      ((∀ x ∈ new, x.fits w = true) ∧ (n.shapeChoices names a ss).1.fits w false spot = true ↔
        n.fits w (!a) spot = true)

theorem shapeChoicesList_fits {ns : List Node}
    (h : ∀ n ∈ ns, ChoicesFit w names n) (a : Bool) (ss : List Shape) :
    ∃ new, (shapeChoicesList names a ns ss).2 = ss ++ new ∧
      ∀ (spots : Nat → Spot) (i : Nat), (∀ j, spots j = .hole → a = true) →
        ((∀ x ∈ new, x.fits w = true) ∧
            fitsList w false spots i (shapeChoicesList names a ns ss).1 = true ↔
          fitsList w (!a) spots i ns = true) := by
  induction ns generalizing ss with
  | nil => exact ⟨[], (List.append_nil _).symm, fun _ _ _ => by simp [shapeChoicesList, fitsList]⟩
  | cons n ns ih =>
    obtain ⟨new, hnew, hn⟩ := h n List.mem_cons_self a ss
    obtain ⟨new', hnew', hns⟩ := ih (fun m hm => h m (List.mem_cons_of_mem _ hm))
      (n.shapeChoices names a ss).2
    refine ⟨new ++ new', ?_, fun spots i hi => ?_⟩
    · rw [← List.append_assoc, ← hnew]
      exact hnew'
    · rw [fitsList, Bool.and_eq_true, ← hn _ (hi i), ← hns spots (i + 1) hi]
      simp only [shapeChoicesList, fitsList, Bool.and_eq_true, List.mem_append]
      grind

/-- The only parts that stand in a hole are those of a hole. -/
theorem part_eq_hole {k : Kind} {ks : List Kind} {i : Nat}
    (h : spot.part l k ks i = .hole) : k = .container ∧ ∃ k', ks = [k'] := by
  unfold Spot.part at h
  split at h
  case h_3 => exact ⟨rfl, _, rfl⟩
  all_goals first | cases h | (split at h <;> cases h)

/-- Lifting matters for the parts of what a hole holds only. -/
theorem part_lifting (h : spot ≠ .hole) (l l' : Bool) (k : Kind) (ks : List Kind) :
    spot.part l k ks = spot.part l' k ks := by
  funext i
  unfold Spot.part
  split <;> simp [h]

/-- The node that stands for a block fits into a hole. -/
theorem fits_placeholderNode (hw : w.Lifts) (l : Bool) (i : Nat) :
    (Block.placeholderNode i).fits w l .hole = true := by
  rw [Block.placeholderNode, reference, fits_mk]
  exact ⟨fun h => hw.hole (reference _ Span.zero) h rfl, rfl⟩

/-- A choice is no content itself. -/
theorem isKind_of_isLowerable (hw : w.Lifts)
    (h : Choice.isLowerable names n = true) : w.isKind n.kind = false := by
  refine isKind_of_not_shows hw names ?_
  unfold Choice.isLowerable at h
  split at h
  · rfl
  · rfl
  · cases h

theorem fits_container (hw : w.Lifts) (l : Bool) (spot : Spot) (s : Span) (e : Node) :
    (mk .container s [e]).fits w l spot = true ↔ e.fits w l .hole = true := by
  have hk : w.isKind .container = false :=
    isKind_of_not_shows hw [] (n := mk .container s [e]) rfl
  simp [fits_mk, hk, fitsList, Spot.part, Kind.isAttribute]

/-- Lowering the choices of a tree makes all content fit if and only if it fits,
    with lifting, before. -/
theorem shapeChoices_fits (hw : w.Lifts) (names : List Text) (n : Node) : ChoicesFit w names n := by
  induction n with
  | mk k s ps ih =>
    intro a ss
    obtain ⟨new, hnew, hps⟩ := shapeChoicesList_fits ih (a || k.isAttribute) ss
    have hkinds := kinds_shapeChoicesList names (a || k.isAttribute) ps ss
    rw [shapeChoices]
    generalize shapeChoicesList names (a || k.isAttribute) ps ss = r at hnew hps hkinds ⊢
    obtain ⟨ps', ss'⟩ := r
    dsimp only at hnew hps hkinds ⊢
    split
    · next e' =>
      obtain ⟨e, rest, rfl, hkind, hrest⟩ := List.map_eq_cons_iff.1 hkinds.symm
      obtain rfl := List.map_eq_nil_iff.1 hrest
      simp only [Kind.isAttribute, Bool.or_false] at hps ⊢
      have he (spot : Spot) (h : spot = .hole → a = true) :
          (∀ x ∈ new, x.fits w = true) ∧ e'.fits w false spot = true ↔ e.fits w (!a) spot = true := by
        simpa [fitsList] using hps (fun _ => spot) 0 fun _ => h
      split
      · next hl =>
        obtain ⟨rfl, hl⟩ : a = false ∧ Choice.isLowerable names e' = true := by simpa using hl
        refine ⟨new ++ [.choice names e'], by rw [hnew, List.append_assoc], fun spot _ => ?_⟩
        have hk : w.isKind e.kind = false := hkind ▸ isKind_of_isLowerable hw hl
        have he : _ ↔ e.fits w true .branch = true := he .branch (by simp)
        rw [fits_container hw, fits_container hw, Bool.not_false, fits_hole_lifting hw, hk, ← he]
        simp [Shape.fits, fits_placeholderNode hw, or_imp, forall_and]
      · next hl =>
        refine ⟨new, hnew, fun spot _ => ?_⟩
        rw [fits_container hw, fits_container hw]
        cases a with
        | true => exact he .hole fun _ => rfl
        | false =>
          have he : _ ↔ e.fits w true .branch = true := he .branch (by simp)
          rw [Bool.not_false, fits_hole_lifting hw, hkind, ← he,
            fits_hole_of_not_isLowerable hw (by simpa using hl)]
          exact and_left_comm
    · next hc =>
      refine ⟨new, hnew, fun spot hspot => ?_⟩
      have hpart : spot.part false k (ps'.map kind) = spot.part (!a) k (ps.map kind) := by
        rw [hkinds]
        by_cases h : spot = .hole
        · rw [hspot h]
          rfl
        · exact part_lifting h _ _ _ _
      have hhole (j : Nat) (h : spot.part false k (ps'.map kind) j = .hole) :
          (a || k.isAttribute) = true := by
        obtain ⟨hk, k', hks⟩ := part_eq_hole h
        obtain ⟨e, rest, rfl, -, hrest⟩ := List.map_eq_cons_iff.1 hks
        obtain rfl := List.map_eq_nil_iff.1 hrest
        exact (hc e hk rfl).elim
      have hps := hps _ 0 hhole
      rw [fits_mk, fits_mk, ← hpart, Bool.false_and, ← Bool.not_or, ← hps]
      exact and_left_comm

end Node

end Unhook
