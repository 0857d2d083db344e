import Unhook.Proofs.Spot

/-!
# Lists in trees

Lists are lowered from the inside out: when a call is looked at, the lists
within it are placeholders already, whose numbers depend on all that was lowered
before. What matters is the *skeleton* of a tree: that a name stands for a
block, but not for which one, and that an attribute is the key, but not what
others are called.

The pieces of a list (`Each.pieces?`) are what is written of it: the
collection, the item, the key and the markup. A tree in which lists are taken
for placeholders is `Node.unlisted`, and its lists are `Node.lists`, the lists
within each taken for placeholders.

* `Each.pieces?_skeleton`: the pieces of a list are found by the skeleton;
* `Node.shapeLists_fits`: lists are lowered so that content fits into their
  shapes if and only if it fits, with lifting, into their pieces.
-/

namespace Unhook

namespace Node

variable {w : Content}

mutual

/-- A tree without the names that do not matter. -/
def skeleton (w : Content) : Node → Node
  | mk k _ ps => mk (k.skeleton w) Span.zero (skeletonList w ps)

/-- Trees without the names that do not matter. -/
def skeletonList (w : Content) : List Node → List Node
  | [] => []
  | n :: ns => skeleton w n :: skeletonList w ns

end

theorem skeletonList_eq (ns : List Node) : skeletonList w ns = ns.map (skeleton w) := by
  induction ns with
  | nil => rfl
  | cons n ns ih => rw [skeletonList, ih, List.map_cons]

theorem skeleton_mk (k : Kind) (s : Span) (ps : List Node) :
    (mk k s ps).skeleton w = mk (k.skeleton w) Span.zero (ps.map (skeleton w)) := by
  rw [skeleton, skeletonList_eq]

@[simp] theorem kind_skeleton (n : Node) : (n.skeleton w).kind = n.kind.skeleton w := by
  obtain ⟨k, s, ps⟩ := n
  rw [skeleton_mk, kind_mk, kind_mk]

@[simp] theorem parts_skeleton (n : Node) : (n.skeleton w).parts = n.parts.map (skeleton w) := by
  obtain ⟨k, s, ps⟩ := n
  rw [skeleton_mk, parts_mk, parts_mk]

@[simp] theorem isMarkup_skeleton (n : Node) : (n.skeleton w).isMarkup = n.isMarkup := by
  obtain ⟨k, s, ps⟩ := n
  rw [skeleton_mk]
  cases k <;> rfl

@[simp] theorem isFunction_skeleton (n : Node) : (n.skeleton w).isFunction = n.isFunction := by
  obtain ⟨k, s, ps⟩ := n
  rw [skeleton_mk]
  cases k <;> rfl

@[simp] theorem isDirective_skeleton (n : Node) : (n.skeleton w).isDirective = n.isDirective := by
  obtain ⟨k, s, ps⟩ := n
  rw [skeleton_mk]
  cases k <;> rfl

theorem isThisParam_skeleton (k : Kind) : k.skeleton w = .thisParam ↔ k = .thisParam := by
  cases k <;> simp [Kind.skeleton]

theorem parameters_skeleton (n : Node) : (n.skeleton w).parameters = n.parameters.map (skeleton w) := by
  have hfilter (ps : List Node) : (ps.map (skeleton w)).filter (fun p => !decide (p.kind = .thisParam)) =
      (ps.filter fun p => !decide (p.kind = .thisParam)).map (skeleton w) := by
    rw [List.filter_map]
    congr 2
    funext p
    simp [isThisParam_skeleton]
  obtain ⟨k, s, ps⟩ := n
  rw [skeleton_mk]
  cases k
  case arrow =>
    rcases ps with _ | ⟨a, _ | ⟨b, _ | ⟨c, _ | ⟨d, _ | ⟨e, r⟩⟩⟩⟩⟩
    all_goals simp [parameters, Kind.skeleton, hfilter]
  case function =>
    rcases ps with _ | ⟨a, _ | ⟨b, _ | ⟨c, _ | ⟨d, _ | ⟨e, _ | ⟨x, r⟩⟩⟩⟩⟩⟩
    all_goals simp [parameters, Kind.skeleton, hfilter]
  all_goals rfl

theorem onlyPattern?_skeleton (n : Node) :
    (n.skeleton w).onlyPattern? = n.onlyPattern?.map (skeleton w) := by
  unfold onlyPattern?
  rw [parameters_skeleton]
  rcases n.parameters with _ | ⟨⟨k, s, ps⟩, _ | ⟨q, r⟩⟩
  · rfl
  · rw [List.map_cons, skeleton_mk]
    cases k <;> rcases ps with _ | ⟨a, _ | ⟨b, r⟩⟩ <;> rfl
  · rw [List.map_cons, List.map_cons, skeleton_mk]
    cases k <;> rcases ps with _ | ⟨a, _ | ⟨b, r⟩⟩ <;> rfl

theorem body_skeleton (n : Node) : (n.skeleton w).body = n.body.skeleton w := by
  obtain ⟨k, s, ps⟩ := n
  rw [skeleton_mk]
  cases k
  case arrow => rcases ps with _ | ⟨a, _ | ⟨b, _ | ⟨c, _ | ⟨d, _ | ⟨e, r⟩⟩⟩⟩⟩ <;> rfl
  case function =>
    rcases ps with _ | ⟨a, _ | ⟨b, _ | ⟨c, _ | ⟨d, _ | ⟨e, _ | ⟨x, r⟩⟩⟩⟩⟩⟩ <;> rfl
  all_goals rfl

theorem statements_skeleton (n : Node) : (n.skeleton w).statements = n.statements.map (skeleton w) := by
  have hfilter (ps : List Node) : (ps.map (skeleton w)).filter (fun p => !p.isDirective) =
      (ps.filter fun p => !p.isDirective).map (skeleton w) := by
    rw [List.filter_map]
    congr 2
    funext p
    simp
  obtain ⟨k, s, ps⟩ := n
  rw [skeleton_mk]
  cases k
  case functionBody => exact hfilter ps
  all_goals rfl

end Node

namespace Each

open Node

variable {w : Content}

/-- The markup that a body without directives renders. -/
theorem returned_skeleton (ss : List Node) :
    (match ss.map (skeleton w) with
      | [.mk .returnStatement _ [e]] => if e.isMarkup then some e else none
      | _ => none) =
    (match ss with
      | [.mk .returnStatement _ [e]] => if e.isMarkup then some e else none
      | _ => none).map (skeleton w) := by
  rcases ss with _ | ⟨⟨k, s, ps⟩, _ | ⟨q, r⟩⟩
  · rfl
  · rw [List.map_cons, skeleton_mk]
    cases k
    case returnStatement =>
      rcases ps with _ | ⟨e, _ | ⟨b, r⟩⟩
      · rfl
      · simp only [Kind.skeleton, List.map_cons, List.map_nil, isMarkup_skeleton]
        split <;> rfl
      · rfl
    all_goals rfl
  · rw [List.map_cons, List.map_cons, skeleton_mk]
    cases k <;> rcases ps with _ | ⟨e, _ | ⟨b, r⟩⟩ <;> rfl

theorem root?_skeleton (n : Node) : root? (n.skeleton w) = (root? n).map (skeleton w) := by
  have hfunctionBody : n.body.kind.skeleton w = .functionBody ↔ n.body.kind = .functionBody := by
    cases n.body.kind <;> simp [Kind.skeleton]
  unfold root?
  rw [body_skeleton, statements_skeleton, kind_skeleton, isMarkup_skeleton]
  by_cases h : n.body.kind = .functionBody
  · rw [hfunctionBody.2 h, h]
    exact returned_skeleton _
  · split
    · next h' => exact absurd (hfunctionBody.1 h') h
    · split <;> rfl

theorem isKey_skeleton (n : Node) : isKey (n.skeleton w) = isKey n := by
  obtain ⟨k, s, ps⟩ := n
  rw [skeleton_mk]
  cases k
  case «attribute» space name =>
    simp only [isKey, Kind.skeleton, kind_mk, Kind.attribute.injEq, decide_eq_decide]
    by_cases h : space = none ∧ name = "key"
    · rw [if_pos h]
      exact ⟨fun _ => h, fun _ => ⟨trivial, rfl⟩⟩
    · rw [if_neg h]
      exact ⟨fun h' => absurd h'.2 (by decide), fun h' => absurd h' h⟩
  all_goals rfl

end Each

namespace Node

variable {w : Content}

theorem mapCall?_skeleton (n : Node) :
    (n.skeleton w).mapCall? = n.mapCall?.map fun (a, f) => (a.skeleton w, f.skeleton w) := by
  obtain ⟨k, s, ps⟩ := n
  rw [skeleton_mk]
  cases k
  case call =>
    rcases ps with _ | ⟨⟨k, s, qs⟩, _ | ⟨t, _ | ⟨f, _ | ⟨x, r⟩⟩⟩⟩
    case cons.cons.cons.nil =>
      simp only [List.map_cons, List.map_nil, skeleton_mk]
      cases k
      case member link m =>
        rcases link with ⟨o, _ | _⟩ <;> rcases qs with _ | ⟨a, _ | ⟨b, r⟩⟩
        case false.cons.nil =>
          simp only [Kind.skeleton, List.map_cons, List.map_nil, mapCall?, isFunction_skeleton,
            onlyPattern?_skeleton, Option.isSome_map]
          split <;> rfl
        all_goals rfl
      all_goals rfl
    all_goals simp [mapCall?, Kind.skeleton]
  all_goals rfl

end Node

namespace Each

open Node

variable {w : Content}

theorem keyValue?_skeleton (n : Node) : keyValue? (n.skeleton w) = (keyValue? n).map (skeleton w) := by
  obtain ⟨k, s, ps⟩ := n
  rw [skeleton_mk]
  cases k
  case element =>
    rcases ps with _ | ⟨⟨k, s, qs⟩, r⟩
    · rfl
    · rw [List.map_cons, skeleton_mk]
      cases k
      case opening =>
        rcases qs with _ | ⟨a, _ | ⟨b, attributes⟩⟩
        · rfl
        · rfl
        · simp only [Kind.skeleton, List.map_cons, keyValue?, List.find?_map]
          rw [show isKey ∘ skeleton w = isKey from funext isKey_skeleton]
          cases attributes.find? isKey <;> simp
      all_goals rfl
  all_goals rfl

theorem keyless_skeleton (n : Node) : keyless (n.skeleton w) = (keyless n).skeleton w := by
  obtain ⟨k, s, ps⟩ := n
  rw [skeleton_mk]
  cases k
  case element =>
    rcases ps with _ | ⟨⟨k, s, qs⟩, r⟩
    · rfl
    · rw [List.map_cons, skeleton_mk]
      cases k
      case opening =>
        rcases qs with _ | ⟨a, _ | ⟨b, attributes⟩⟩
        · simp [Kind.skeleton, keyless, takeKey, skeleton_mk]
        · simp [Kind.skeleton, keyless, takeKey, skeleton_mk]
        · simp only [Kind.skeleton, List.map_cons, keyless, takeKey, List.eraseP_map, skeleton_mk]
          rw [show isKey ∘ skeleton w = isKey from funext isKey_skeleton]
      all_goals simp [Kind.skeleton, keyless, takeKey, skeleton_mk]
  all_goals simp [Kind.skeleton, keyless, takeKey, skeleton_mk]

end Each

namespace Node

variable {w : Content}

theorem isAttribute_skeleton (k : Kind) : (k.skeleton w).isAttribute = k.isAttribute := by
  cases k <;> rfl

theorem isExpressionCall_skeleton (k : Kind) : (k.skeleton w).isExpressionCall = k.isExpressionCall := by
  cases k <;> rfl

theorem part_skeleton (l : Bool) (spot : Spot) (k : Kind) (ks : List Kind) :
    spot.part l (k.skeleton w) (ks.map (Kind.skeleton w)) = spot.part l k ks := by
  funext i
  cases k
  case declarator =>
    rcases ks with _ | ⟨k, _ | ⟨a, _ | ⟨b, _ | ⟨c, r⟩⟩⟩⟩ <;> try rfl
    all_goals cases k <;> rfl
  case assign =>
    rcases ks with _ | ⟨k, _ | ⟨a, _ | ⟨b, r⟩⟩⟩ <;> try rfl
    all_goals cases k <;> rfl
  case conditional => rcases ks with _ | ⟨k, _ | ⟨a, _ | ⟨b, _ | ⟨c, r⟩⟩⟩⟩ <;> rfl
  case binary op => cases op <;> rcases ks with _ | ⟨k, _ | ⟨a, _ | ⟨b, r⟩⟩⟩ <;> rfl
  case container | labeled | expressionStatement | returnStatement =>
    rcases ks with _ | ⟨k, _ | ⟨a, r⟩⟩ <;> rfl
  all_goals rfl

theorem fitsList_skeleton {ns : List Node}
    (h : ∀ n ∈ ns, ∀ l spot, (n.skeleton w).fits w l spot = n.fits w l spot) (l : Bool)
    (spots : Nat → Spot) (i : Nat) :
    fitsList w l spots i (ns.map (skeleton w)) = fitsList w l spots i ns := by
  induction ns generalizing i with
  | nil => rfl
  | cons n ns ih =>
    rw [List.map_cons, fitsList, fitsList, h n List.mem_cons_self,
      ih fun n hn => h n (List.mem_cons_of_mem _ hn)]

/-- Whether content fits is decided by the skeleton. -/
theorem fits_skeleton (hw : w.Lifts) (l : Bool) (spot : Spot) (n : Node) :
    (n.skeleton w).fits w l spot = n.fits w l spot := by
  induction n generalizing l spot with
  | mk k s ps ih =>
    have hkinds : (ps.map (skeleton w)).map kind = (ps.map kind).map (Kind.skeleton w) := by
      simp [Function.comp_def]
    rw [skeleton_mk, fits, fits, hw.skeleton, isAttribute_skeleton, hkinds, part_skeleton,
      fitsList_skeleton ih]

theorem fitsList_congr (hw : w.Lifts) {ns ms : List Node}
    (h : ns.map (skeleton w) = ms.map (skeleton w)) (l : Bool) (spots : Nat → Spot) (i : Nat) :
    fitsList w l spots i ns = fitsList w l spots i ms := by
  have hfits (n : Node) (l : Bool) (spot : Spot) := fits_skeleton hw l spot n
  rw [← fitsList_skeleton fun n _ => hfits n, h, fitsList_skeleton fun n _ => hfits n]

end Node

/-! ### Pieces of lists -/

namespace Each

open Node

variable {w : Content}

/-- What is written of a list: the markup is without its key. -/
structure Pieces where
  collection : Node
  item : Node
  key : Option Node
  root : Node

/-- The pieces of a call that renders a list. -/
def pieces? (call : Node) : Option Pieces := do
  let (collection, callback) ← call.mapCall?
  let item ← callback.onlyPattern?
  let root ← root? callback
  return { collection, item, key := keyValue? root, root := keyless root }

/-- The shape of a list has its pieces, with the choices of the markup lowered. -/
theorem shape?_eq (names : List Text) (call : Node) (ss : List Shape) :
    shape? names call ss = (pieces? call).map fun p =>
      (.each names p.collection p.item p.key (p.root.shapeChoices names false ss).1,
        (p.root.shapeChoices names false ss).2) := by
  unfold shape? pieces?
  cases call.mapCall? with
  | none => rfl
  | some m =>
    cases hi : m.2.onlyPattern? with
    | none => simp [hi]
    | some item => cases hr : root? m.2 <;> simp [hi, hr]

/-- Pieces without the names that do not matter. -/
def Pieces.skeleton (w : Content) (p : Pieces) : Pieces :=
  ⟨p.collection.skeleton w, p.item.skeleton w, p.key.map (Node.skeleton w), p.root.skeleton w⟩

theorem pieces?_skeleton (n : Node) : pieces? (n.skeleton w) = (pieces? n).map (Pieces.skeleton w) := by
  unfold pieces?
  rw [mapCall?_skeleton]
  cases n.mapCall? with
  | none => rfl
  | some m =>
    simp only [Option.map_some, Option.bind_eq_bind, Option.bind_some, onlyPattern?_skeleton,
      root?_skeleton]
    cases m.2.onlyPattern? with
    | none => rfl
    | some item =>
      cases root? m.2 with
      | none => rfl
      | some root => simp [Pieces.skeleton, keyValue?_skeleton, keyless_skeleton]

theorem keyExpression?_skeleton (n : Node) :
    keyExpression? (n.skeleton w) = (keyExpression? n).map (Node.skeleton w) := by
  obtain ⟨k, s, ps⟩ := n
  rw [skeleton_mk]
  cases k
  case container =>
    rcases ps with _ | ⟨⟨k, s, qs⟩, _ | ⟨b, r⟩⟩
    · rfl
    · rw [List.map_cons, skeleton_mk]
      cases k <;> simp [keyExpression?, Kind.skeleton, skeleton_mk]
    · rfl
  all_goals rfl

/-- Whether content fits into the pieces of a list. From the markup choices are
    lifted. -/
def Pieces.fits (w : Content) (p : Pieces) : Bool :=
  p.collection.fits w false .expression && p.item.fits w false .expression &&
    (p.key.bind keyExpression?).all (·.fits w false .expression) && p.root.fits w true .shown

theorem Pieces.fits_skeleton (hw : w.Lifts) (p : Pieces) : (p.skeleton w).fits w = p.fits w := by
  obtain ⟨collection, item, key, root⟩ := p
  have hkey : ((key.map (Node.skeleton w)).bind keyExpression?).all (·.fits w false .expression) =
      (key.bind keyExpression?).all (·.fits w false .expression) := by
    cases key with
    | none => rfl
    | some v =>
      simp only [Option.map_some, Option.bind_some, keyExpression?_skeleton]
      cases keyExpression? v with
      | none => rfl
      | some e => exact Node.fits_skeleton hw _ _ e
  simp only [fits, skeleton, Node.fits_skeleton hw, hkey]

end Each

/-! ### Lists of trees -/

namespace Node

variable {w : Content}

/-- The pieces of a list, if the node is a call in expression position that
    renders one. -/
def list? (n : Node) : Option Each.Pieces :=
  if n.kind.isExpressionCall then Each.pieces? n else none

theorem list?_skeleton (n : Node) : (n.skeleton w).list? = n.list?.map (Each.Pieces.skeleton w) := by
  unfold list?
  rw [kind_skeleton, isExpressionCall_skeleton, Each.pieces?_skeleton]
  split <;> rfl

mutual

/-- A tree with its lists taken for placeholders. -/
def unlisted : Node → Node
  | mk k s ps =>
    let n := mk k s (unlistedList ps)
    if n.list?.isSome then Block.placeholderNode 0 else n

/-- Trees with their lists taken for placeholders. -/
def unlistedList : List Node → List Node
  | [] => []
  | n :: ns => unlisted n :: unlistedList ns

end

mutual

/-- The pieces of the lists of a tree, the inner lists first. -/
def lists : Node → List Each.Pieces
  | mk k s ps => listsList ps ++ (mk k s (unlistedList ps)).list?.toList

/-- The pieces of the lists of some trees. -/
def listsList : List Node → List Each.Pieces
  | [] => []
  | n :: ns => lists n ++ listsList ns

end

theorem listsList_eq (ns : List Node) : listsList ns = ns.flatMap lists := by
  induction ns with
  | nil => rfl
  | cons n ns ih => rw [listsList, ih, List.flatMap_cons]

theorem skeleton_placeholderNode {i : Nat} (h : w.isKind (.identifier (Block.placeholder i)) =
      w.isKind (.identifier (Block.placeholder 0))) :
    (Block.placeholderNode i).skeleton w = (Block.placeholderNode 0).skeleton w := by
  unfold Block.placeholderNode reference
  rw [skeleton_mk, skeleton_mk, Kind.skeleton, Kind.skeleton, h]

/-- What is said of lowering the lists of a node: it adds shapes, the tree that
    is left has placeholders for lists, and content fits into the shapes if and
    only if it fits into the pieces of the lists. No more than `m` shapes are
    counted on. -/
def ListsFit (w : Content) (m : Nat) (names : List Text) (n : Node) : Prop :=
  ∀ ss, ∃ new, (n.shapeLists names ss).2 = ss ++ new ∧ ((ss ++ new).length ≤ m →
    (n.shapeLists names ss).1.skeleton w = n.unlisted.skeleton w ∧
    ((∀ x ∈ new, x.fits w = true) ↔ ∀ p ∈ n.lists, p.fits w = true))

theorem shapeListsList_fits {m : Nat} {names : List Text} {ns : List Node}
    (h : ∀ n ∈ ns, ListsFit w m names n) (ss : List Shape) :
    ∃ new, (shapeListsList names ns ss).2 = ss ++ new ∧ ((ss ++ new).length ≤ m →
      (shapeListsList names ns ss).1.map (skeleton w) = (unlistedList ns).map (skeleton w) ∧
      ((∀ x ∈ new, x.fits w = true) ↔ ∀ p ∈ listsList ns, p.fits w = true)) := by
  induction ns generalizing ss with
  | nil => exact ⟨[], (List.append_nil _).symm, fun _ => ⟨rfl, by simp [listsList]⟩⟩
  | cons n ns ih =>
    obtain ⟨new, hnew, hn⟩ := h n List.mem_cons_self ss
    obtain ⟨new', hnew', hns⟩ := ih (fun m hm => h m (List.mem_cons_of_mem _ hm)) (ss ++ new)
    have hsnd : (shapeListsList names (n :: ns) ss).2 = (shapeListsList names ns (ss ++ new)).2 := by
      rw [← hnew]
      rfl
    have hfst : (shapeListsList names (n :: ns) ss).1 =
        (n.shapeLists names ss).1 :: (shapeListsList names ns (ss ++ new)).1 := by
      rw [← hnew]
      rfl
    refine ⟨new ++ new', by rw [hsnd, hnew', List.append_assoc], fun hm => ?_⟩
    rw [← List.append_assoc] at hm
    obtain ⟨hskeleton, hfits⟩ := hn (by simp at hm ⊢; omega)
    obtain ⟨hskeleton', hfits'⟩ := hns hm
    refine ⟨?_, ?_⟩
    · rw [hfst, unlistedList, List.map_cons, List.map_cons, hskeleton, hskeleton']
    · simp only [listsList, List.mem_append, or_imp, forall_and, hfits, hfits']

/-- Lowering the lists of a tree makes content fit into their shapes if and only
    if it fits into their pieces. -/
theorem shapeLists_fits (hw : w.Lifts) {m : Nat}
    (hm : ∀ i < m, w.isKind (.identifier (Block.placeholder i)) =
      w.isKind (.identifier (Block.placeholder 0))) (names : List Text) (n : Node) :
    ListsFit w m names n := by
  induction n with
  | mk k s ps ih =>
    intro ss
    obtain ⟨new, hnew, hps⟩ := shapeListsList_fits ih ss
    rw [shapeLists]
    generalize shapeListsList names ps ss = r at hnew hps ⊢
    obtain ⟨ps', ss'⟩ := r
    dsimp only at hnew hps ⊢
    subst hnew
    have hlist : (if k.isExpressionCall then Each.shape? names (mk k s ps') (ss ++ new) else none) =
        (mk k s ps').list?.map fun p =>
          (.each names p.collection p.item p.key (p.root.shapeChoices names false (ss ++ new)).1,
            (p.root.shapeChoices names false (ss ++ new)).2) := by
      rw [Each.shape?_eq, list?, kind_mk]
      split <;> rfl
    rw [hlist]
    have hskeleton (h : (ss ++ new).length ≤ m) :
        (mk k s ps').skeleton w = (mk k s (unlistedList ps)).skeleton w := by
      rw [skeleton_mk, skeleton_mk, (hps h).1]
    have hpieces (h : (ss ++ new).length ≤ m) : (mk k s ps').list?.map (Each.Pieces.skeleton w) =
        (mk k s (unlistedList ps)).list?.map (Each.Pieces.skeleton w) := by
      rw [← list?_skeleton, hskeleton h, list?_skeleton]
    cases hl : (mk k s ps').list? with
    | none =>
      refine ⟨new, rfl, fun h => ?_⟩
      have hnone : (mk k s (unlistedList ps)).list? = none := by
        rw [← Option.map_eq_none_iff, ← hpieces h, hl, Option.map_none]
      rw [unlisted, lists, hnone]
      exact ⟨hskeleton h, by simpa using (hps h).2⟩
    | some p =>
      obtain ⟨new', hnew', hroot⟩ := shapeChoices_fits hw names p.root false (ss ++ new)
      refine ⟨new ++ new' ++ [.each names p.collection p.item p.key
        (p.root.shapeChoices names false (ss ++ new)).1], by simp [hnew'], fun h => ?_⟩
      have hlength : (ss ++ new).length ≤ m ∧ (ss ++ new ++ new').length < m := by
        simp only [List.length_append, List.length_cons, List.length_nil] at h ⊢
        omega
      -- What is found in the tree with placeholders is found in the tree without them.
      obtain ⟨q, hq, hqp⟩ : ∃ q, (mk k s (unlistedList ps)).list? = some q ∧
          q.skeleton w = p.skeleton w := by
        rw [← Option.map_eq_some_iff, ← hpieces hlength.1, hl, Option.map_some]
      have hfits : q.fits w = p.fits w := by
        rw [← Each.Pieces.fits_skeleton hw q, hqp, Each.Pieces.fits_skeleton hw]
      refine ⟨?_, ?_⟩
      · simp only [unlisted, hq, Option.isSome_some, if_true, Option.map_some, hnew']
        exact skeleton_placeholderNode (hm _ hlength.2)
      · have hp : (∀ x ∈ new', x.fits w = true) ∧ (Shape.each names p.collection p.item p.key
            (p.root.shapeChoices names false (ss ++ new)).1).fits w = true ↔ p.fits w = true := by
          have hroot : _ ↔ p.root.fits w true .shown = true := hroot .shown (by simp)
          simp only [Shape.fits_each, Each.Pieces.fits, Bool.and_eq_true, ← hroot]
          exact and_left_comm
        simp only [lists, hq, Option.toList_some, List.mem_append, List.mem_singleton, or_imp,
          forall_and, forall_eq, (hps hlength.1).2, hfits, ← hp, and_assoc]

end Node

end Unhook
