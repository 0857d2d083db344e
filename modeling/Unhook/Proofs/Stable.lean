import Unhook.Proofs.Binding
import Unhook.Proofs.Trimming

/-!
# Markup in its output form stays as it is

Once markup has its output form there is nothing left to do: no attribute has a name
to be changed, no list is left and no hole chooses between markup. So the step does
nothing when it is taken again.

Lists are looked for before choices, and markup variables before each of both. What
is found later must not bring up what was looked for earlier: making blocks of
choices changes nothing but what holes hold (`Node.Refill`), and by this a call does
not come to render a list, nor a variable to hold markup.

* `Node.list?`, `Node.holes`, `Attribute.isRenamed`: what the step looks for;
* `Node.Refill`: trees that differ in what holes hold;
* `Component.Stable`: components with nothing left to do;
* `Component.lowerMarkup_stable`: the step leads to one, and leaves it as it is.
-/

namespace Unhook

/-! ### Names of attributes -/

namespace Attribute

/-- Whether an attribute without a namespace gets another name. -/
def isRenamed (name : Text) : Bool := name = "className" || (event? name).isSome

theorem rename_of_not_isRenamed {name : Text} (h : isRenamed name = false) :
    rename name = (none, name) := by
  rw [isRenamed, Bool.or_eq_false_iff, decide_eq_false_iff_not, Option.isSome_eq_false_iff,
    Option.isNone_iff_eq_none] at h
  rw [rename, if_neg h.1, h.2]

/-- A name that stays without a namespace is not changed again. -/
theorem isRenamed_rename (name : Text) (h : (rename name).1 = none) :
    isRenamed (rename name).2 = false := by
  unfold rename at h ⊢
  split
  · decide
  · next hclass =>
    rw [if_neg hclass] at h
    cases he : event? name with
    | some e =>
      rw [he] at h
      cases h
    | none =>
      dsimp only
      rw [isRenamed, decide_eq_false hclass, he]
      rfl

end Attribute

/-- The pieces of a call are there if its callback renders markup. -/
theorem Each.isSome_pieces? {n : Node} : (pieces? n).isSome = true ↔
    ∃ collection callback, n.mapCall? = some (collection, callback) ∧
      (root? callback).isSome = true := by
  unfold pieces?
  cases hm : n.mapCall? with
  | none => simp
  | some m =>
    obtain ⟨collection, callback⟩ := m
    obtain ⟨item, hi⟩ : ∃ item, callback.onlyPattern? = some item := by
      unfold Node.mapCall? at hm
      split at hm
      · split at hm
        · next hmap =>
          cases hm
          exact Option.isSome_iff_exists.1 hmap.2.2
        · cases hm
      · cases hm
    cases hr : root? callback <;> simp [hi, hr]

/-- Whether a kind is that of attributes that get another name. -/
def Kind.isRenamed : Kind → Bool
  | .attribute none name => Attribute.isRenamed name
  | _ => false

namespace Node

theorem any_mk_eq_false {q : Node → Bool} {k : Kind} {s : Span} {ps : List Node} :
    (mk k s ps).any q = false ↔ q (mk k s ps) = false ∧ ∀ p ∈ ps, p.any q = false := by
  rw [any_mk, anyList_eq, Bool.or_eq_false_iff, List.any_eq_false]
  simp only [Bool.not_eq_true]

/-- Whether a tree has an attribute that gets another name. -/
def hasRenamed (n : Node) : Bool := n.any (·.kind.isRenamed)

/-- Whether a tree has a call in expression position that renders a list. -/
def hasList (n : Node) : Bool := n.any (·.list?.isSome)

mutual

/-- What the holes of a tree hold, outside attributes. -/
def holes : Node → List Node
  | mk k _ ps =>
    match k, ps with
    | .attribute _ _, _ => []
    | .container, [e] => e :: holes e
    | _, ps => holesList ps

/-- What the holes of some trees hold, outside attributes. -/
def holesList : List Node → List Node
  | [] => []
  | n :: ns => holes n ++ holesList ns

end

theorem hasRenamed_renameAttributes (n : Node) : n.renameAttributes.hasRenamed = false := by
  induction n with
  | mk k s ps ih =>
    have hps : ∀ p ∈ renameAttributesList ps, p.hasRenamed = false := by
      rw [renameAttributesList_eq]
      exact List.forall_mem_map.2 ih
    cases k
    case «attribute» space name =>
      cases space with
      | none =>
        refine any_mk_eq_false.2 ⟨?_, hps⟩
        have hname := Attribute.isRenamed_rename name
        show (Kind.attribute (Attribute.rename name).1 (Attribute.rename name).2).isRenamed = false
        generalize Attribute.rename name = r at hname
        obtain ⟨_ | space, name⟩ := r
        · exact hname rfl
        · rfl
      | some space => exact any_mk_eq_false.2 ⟨rfl, hps⟩
    all_goals exact any_mk_eq_false.2 ⟨rfl, hps⟩

theorem renameAttributes_of_not_hasRenamed {n : Node} (h : n.hasRenamed = false) :
    n.renameAttributes = n := by
  induction n with
  | mk k s ps ih =>
    obtain ⟨hk, hps⟩ := any_mk_eq_false.1 h
    have hps : renameAttributesList ps = ps := by
      rw [renameAttributesList_eq]
      exact (List.map_congr_left fun p hp => ih p hp (hps p hp)).trans (List.map_id ps)
    cases k
    case «attribute» space name =>
      cases space with
      | none => rw [renameAttributes, hps, Attribute.rename_of_not_isRenamed hk]
      | some space =>
        rw [renameAttributes, hps]
        simp
    all_goals
      rw [renameAttributes, hps]
      simp

/-! ### Lists -/

section Blocks

variable {names : List Text}

/-- A call in expression position has a block if it renders a list. -/
theorem isSome_block? (names : List Text) (k : Kind) (s : Span) (ps : List Node) (bs : List Block) :
    (if k.isExpressionCall then Each.block? names (mk k s ps) bs else none).isSome =
      (mk k s ps).list?.isSome := by
  rw [list?, kind_mk]
  split
  · unfold Each.block? Each.pieces?
    cases (mk k s ps).mapCall? with
    | none => rfl
    | some m =>
      cases hi : m.2.onlyPattern? with
      | none => simp [hi]
      | some item => cases hr : Each.root? m.2 <;> simp [hi, hr]
  · rfl

/-- No list is left. -/
theorem hasList_lowerLists (n : Node) (bs : List Block) :
    (n.lowerLists names bs).1.hasList = false := by
  induction n generalizing bs with
  | mk k s ps ih =>
    have hps := forall₂_lowerListsList (R := fun _ m => m.hasList = false) ih bs
    have hblock := isSome_block? names k s (lowerListsList names ps bs).1
      (lowerListsList names ps bs).2
    rw [lowerLists_mk]
    dsimp only
    split
    · next b bs' hb => rfl
    · next hb =>
      rw [hb] at hblock
      refine any_mk_eq_false.2 ⟨hblock.symm, fun q hq => ?_⟩
      obtain ⟨p, -, hq⟩ := exists_of_forall₂ hps hq
      exact hq

theorem lowerListsList_of_unchanged {ns : List Node}
    (h : ∀ n ∈ ns, ∀ bs, n.lowerLists names bs = (n, bs)) (bs : List Block) :
    lowerListsList names ns bs = (ns, bs) := by
  induction ns with
  | nil => rfl
  | cons n ns ih =>
    rw [lowerListsList, h n List.mem_cons_self]
    dsimp only
    rw [ih fun m hm => h m (List.mem_cons_of_mem _ hm)]

/-- A tree without lists is left as it is. -/
theorem lowerLists_of_not_hasList {n : Node} (h : n.hasList = false) (bs : List Block) :
    n.lowerLists names bs = (n, bs) := by
  induction n generalizing bs with
  | mk k s ps ih =>
    obtain ⟨hn, hps⟩ := any_mk_eq_false.1 h
    have hblock := isSome_block? names k s ps bs
    rw [hn, Option.isSome_eq_false_iff, Option.isNone_iff_eq_none] at hblock
    rw [lowerLists_mk, lowerListsList_of_unchanged fun p hp => ih p hp (hps p hp)]
    dsimp only
    rw [hblock]

/-! ### Trees that differ in holes -/

theorem markupVariablesList_eq (ns : List Node) :
    markupVariablesList ns = ns.flatMap markupVariables := by
  induction ns with
  | nil => rfl
  | cons n ns ih => rw [markupVariablesList, ih, List.flatMap_cons]

/-- Trees of which the second has the names of blocks in some holes, in place of what the
    first has there. -/
inductive Refill : Node → Node → Prop
  | parts {k : Kind} {s : Span} {ps qs : List Node} (h : List.Forall₂ Refill ps qs) :
    Refill (mk k s ps) (mk k s qs)
  | filled {s : Span} {ps : List Node} (i : Nat) :
    Refill (mk .container s ps) (mk .container s [Block.placeholderNode i])

theorem refill_lowerChoices (n : Node) (a : Bool) (bs : List Block) :
    Refill n (n.lowerChoices names a bs).1 :=
  lowerChoices_induction .parts .filled n a bs

namespace Refill

variable {n m f g : Node} {x : Text}

theorem kind (h : Refill n m) : n.kind = m.kind := by
  cases h <;> rfl

/-- Outside holes, the parts of one tree are those of the other. -/
theorem exists_of_mk {k : Kind} {s : Span} {qs : List Node} (h : Refill n (mk k s qs))
    (hk : k ≠ .container) : ∃ ps, n = mk k s ps ∧ List.Forall₂ Refill ps qs := by
  cases h with
  | parts h => exact ⟨_, rfl, h⟩
  | filled i => exact (hk rfl).elim

theorem isMarkup (h : Refill n m) : n.isMarkup = m.isMarkup := by
  rw [Node.isMarkup, Node.isMarkup, h.kind]

theorem isFunction (h : Refill n m) : n.isFunction = m.isFunction := by
  rw [Node.isFunction, Node.isFunction, h.kind]

theorem body (h : Refill f g) : Refill f.body g.body := by
  have habsent : Refill absent absent := .parts .nil
  cases h with
  | filled i => exact habsent
  | @parts k s ps qs h =>
    cases k
    case arrow =>
      rcases h with _ | ⟨-, _ | ⟨-, _ | ⟨-, _ | ⟨hbody, _ | ⟨-, -⟩⟩⟩⟩⟩
      case cons.cons.cons.cons.nil => exact hbody
      all_goals exact habsent
    case function =>
      rcases h with _ | ⟨-, _ | ⟨-, _ | ⟨-, _ | ⟨-, _ | ⟨hbody, _ | ⟨-, -⟩⟩⟩⟩⟩⟩
      case cons.cons.cons.cons.cons.nil => exact hbody
      all_goals exact habsent
    all_goals exact habsent

/-- What is chosen among parts by their kinds. -/
theorem filter {p : Node → Bool} (hp : ∀ {n m}, Refill n m → p n = p m) {ps qs : List Node}
    (h : List.Forall₂ Refill ps qs) : List.Forall₂ Refill (ps.filter p) (qs.filter p) :=
  List.rel_filter (fun _ _ h => by simp [hp h]) h

theorem statements (h : Refill n m) : List.Forall₂ Refill n.statements m.statements := by
  cases h with
  | filled i => exact .nil
  | @parts k s ps qs h =>
    cases k
    case functionBody => exact filter (fun h => by rw [isDirective, isDirective, h.kind]) h
    all_goals exact .nil

/-- The parameters of a function correspond, unless they are the content of a hole. -/
theorem parameters (h : Refill f g) (hg : ∀ i, g.parameters ≠ [Block.placeholderNode i]) :
    List.Forall₂ Refill f.parameters g.parameters := by
  have hparams {x y : Node} (h : Refill x y)
      (hy : ∀ i, y.parts.filter (fun p => p.kind ≠ .thisParam) ≠ [Block.placeholderNode i]) :
      List.Forall₂ Refill (x.parts.filter fun p => p.kind ≠ .thisParam)
        (y.parts.filter fun p => p.kind ≠ .thisParam) := by
    cases h with
    | parts h => exact filter (fun h => by rw [h.kind]) h
    | filled i => exact (hy i rfl).elim
  cases h with
  | filled i => exact .nil
  | @parts k s ps qs h =>
    cases k
    case arrow =>
      rcases h with _ | ⟨-, _ | ⟨h, _ | ⟨-, _ | ⟨-, _ | ⟨-, -⟩⟩⟩⟩⟩
      case cons.cons.cons.cons.nil => exact hparams h hg
      all_goals exact .nil
    case function =>
      rcases h with _ | ⟨-, _ | ⟨-, _ | ⟨h, _ | ⟨-, _ | ⟨-, _ | ⟨-, -⟩⟩⟩⟩⟩⟩
      case cons.cons.cons.cons.cons.nil => exact hparams h hg
      all_goals exact .nil
    all_goals exact .nil

theorem onlyPattern? (h : Refill f g) (hg : g.onlyPattern?.isSome = true) :
    f.onlyPattern?.isSome = true := by
  unfold Node.onlyPattern? at hg ⊢
  split at hg
  · next a b s x p r hparam =>
    have hps := h.parameters fun i hi => by
      rw [hparam] at hi
      cases hi
    rw [hparam] at hps
    generalize f.parameters = ps at hps
    obtain _ | ⟨hparam, _ | _⟩ := hps
    obtain ⟨qs, rfl, hqs⟩ := hparam.exists_of_mk (by simp)
    obtain _ | ⟨-, _ | ⟨-, -⟩⟩ := hqs
    rfl
  · cases hg

theorem root? (h : Refill f g) (hg : (Each.root? g).isSome = true) :
    (Each.root? f).isSome = true := by
  have hstatements := h.body.statements
  unfold Each.root? at hg ⊢
  rw [h.body.kind, h.body.isMarkup]
  split
  · next hk =>
    rw [hk] at hg
    dsimp only at hg
    split at hg
    · next s e he =>
      rw [he] at hstatements
      generalize f.body.statements = ss at hstatements
      obtain _ | ⟨hreturn, _ | _⟩ := hstatements
      obtain ⟨qs, rfl, hqs⟩ := hreturn.exists_of_mk (by simp)
      obtain _ | ⟨he, _ | _⟩ := hqs
      dsimp only
      rw [Option.isSome_ite] at hg ⊢
      rwa [he.isMarkup]
    · cases hg
  · next hk =>
    split at hg
    · next hk' => exact (hk hk').elim
    · rwa [Option.isSome_ite] at hg ⊢

theorem mapCall? {collection callback : Node} (h : Refill n m)
    (hm : m.mapCall? = some (collection, callback)) :
    ∃ collection' callback', n.mapCall? = some (collection', callback') ∧
      Refill callback' callback := by
  unfold Node.mapCall? at hm
  split at hm
  · next link pure s o method sm collection types callback =>
    split at hm
    · next hmap =>
      cases hm
      obtain ⟨ps, rfl, hps⟩ := h.exists_of_mk (by simp)
      obtain _ | ⟨hmember, _ | ⟨-, _ | ⟨hcallback, _ | _⟩⟩⟩ := hps
      obtain ⟨qs, rfl, hqs⟩ := hmember.exists_of_mk (by simp)
      obtain _ | ⟨-, _ | _⟩ := hqs
      refine ⟨_, _, if_pos ⟨hmap.1, ?_, hcallback.onlyPattern? hmap.2.2⟩, hcallback⟩
      rw [hcallback.isFunction]
      exact hmap.2.1
    · cases hm
  · cases hm

/-- A call does not come to be one that renders a list. -/
theorem list? (h : Refill n m) (hm : m.list?.isSome = true) : n.list?.isSome = true := by
  unfold Node.list? at hm ⊢
  rw [h.kind]
  split at hm
  · next hcall =>
    obtain ⟨collection, callback, hmap, hroot⟩ := Each.isSome_pieces?.1 hm
    obtain ⟨collection', callback', hmap', hcallback⟩ := h.mapCall? hmap
    rw [if_pos hcall]
    exact Each.isSome_pieces?.2 ⟨collection', callback', hmap', hcallback.root? hroot⟩
  · cases hm

/-- What is on no node of a tree is on none after blocks are put into holes, unless it
    is on the names of blocks. -/
theorem any {q : Node → Bool} (hq : ∀ {n m}, Refill n m → q m = true → q n = true)
    (hname : ∀ i, q (Block.placeholderNode i) = false) (h : Refill n m) (hn : n.any q = false) :
    m.any q = false := by
  induction m generalizing n with
  | mk k s qs ih =>
    have hown : q (.mk k s qs) = false := by
      obtain ⟨k', s', ps⟩ := n
      exact Bool.eq_false_iff.2 fun hm => Bool.eq_false_iff.1 (any_mk_eq_false.1 hn).1 (hq h hm)
    refine any_mk_eq_false.2 ⟨hown, fun p hp => ?_⟩
    cases h with
    | parts h =>
      obtain ⟨p', hp', h⟩ := exists_of_forall₂ h hp
      exact ih p hp h ((any_mk_eq_false.1 hn).2 p' hp')
    | filled i =>
      obtain rfl := List.mem_singleton.1 hp
      exact any_mk_eq_false.2 ⟨hname i, by simp⟩

theorem hasList (h : Refill n m) (hn : n.hasList = false) : m.hasList = false :=
  h.any list? (fun _ => rfl) hn

theorem hasRenamed (h : Refill n m) (hn : n.hasRenamed = false) : m.hasRenamed = false :=
  h.any (fun h hm => by rwa [h.kind]) (fun _ => rfl) hn

theorem isMarkupValue (h : Refill n m) : n.isMarkupValue = m.isMarkupValue := by
  rw [Node.isMarkupValue, Node.isMarkupValue, isPlaceholder, isPlaceholder, h.isMarkup,
    identifier?_congr h.kind]

theorem declarator? {v : Node} (h : Refill n m) (hm : m.declarator? = some (x, v)) :
    ∃ u, n.declarator? = some (x, u) ∧ Refill u v := by
  unfold Node.declarator? at hm
  split at hm
  · next d s name sn pn types value =>
    split at hm
    · cases hm
    · next hvalue =>
      cases hm
      obtain ⟨ps, rfl, hps⟩ := h.exists_of_mk (by simp)
      obtain _ | ⟨hname, _ | ⟨-, _ | ⟨hv, _ | _⟩⟩⟩ := hps
      obtain ⟨qs, rfl, -⟩ := hname.exists_of_mk (by simp)
      refine ⟨_, if_neg ?_, hv⟩
      rwa [isAbsent, hv.kind]
  · cases hm

theorem assignment? {v : Node} (h : Refill n m) (hm : m.assignment? = some (x, v)) :
    ∃ u, n.declarator? = none ∧ n.assignment? = some (x, u) ∧ Refill u v := by
  unfold Node.assignment? at hm
  split at hm
  · cases hm
    obtain ⟨ps, rfl, hps⟩ := h.exists_of_mk (by simp)
    obtain _ | ⟨hname, _ | ⟨hv, _ | _⟩⟩ := hps
    obtain ⟨qs, rfl, -⟩ := hname.exists_of_mk (by simp)
    exact ⟨_, rfl, rfl, hv⟩
  · cases hm

theorem ownMarkupVariable? (h : Refill n m) (hm : m.ownMarkupVariable? = some x) :
    n.ownMarkupVariable? = some x := by
  have hgives {v : Node} (hv : m.declarator?.or m.assignment? = some (x, v)) :
      ∃ u, n.declarator?.or n.assignment? = some (x, u) ∧ Refill u v := by
    obtain hd | ⟨-, ha⟩ := Option.or_eq_some_iff.1 hv
    · obtain ⟨u, hu, hv⟩ := h.declarator? hd
      exact ⟨u, by rw [hu, Option.some_or], hv⟩
    · obtain ⟨u, hnone, hu, hv⟩ := h.assignment? ha
      exact ⟨u, by rw [hnone, hu, Option.none_or], hv⟩
  unfold Node.ownMarkupVariable? at hm ⊢
  split at hm
  · next y v hv =>
    split at hm
    · next hmarkup =>
      cases hm
      obtain ⟨u, hu, huv⟩ := hgives hv
      rw [hu]
      exact if_pos (huv.isMarkupValue ▸ hmarkup)
    · cases hm
  · cases hm

/-- A variable does not come to hold markup. -/
theorem mem_markupVariables (h : Refill n m) (hm : x ∈ m.markupVariables) :
    x ∈ n.markupVariables := by
  induction m generalizing n with
  | mk k s qs ih =>
    rw [markupVariables, markupVariablesList_eq, List.mem_append, Option.mem_toList] at hm
    obtain ⟨k', s', ps'⟩ := n
    rw [markupVariables, markupVariablesList_eq, List.mem_append, Option.mem_toList]
    refine hm.imp h.ownMarkupVariable? fun hm => ?_
    obtain ⟨q, hq, hx⟩ := List.mem_flatMap.1 hm
    cases h with
    | parts h =>
      obtain ⟨p, hp, hpq⟩ := exists_of_forall₂ h hq
      exact List.mem_flatMap.2 ⟨p, hp, ih q hq hpq hx⟩
    | filled i =>
      obtain rfl := List.mem_singleton.1 hq
      cases hx

end Refill

variable {k : Kind}

/-! ### Choices -/

theorem holesList_eq (ns : List Node) : holesList ns = ns.flatMap holes := by
  induction ns with
  | nil => rfl
  | cons n ns ih => rw [holesList, ih, List.flatMap_cons]

theorem holes_of_isAttribute (hk : k.isAttribute = true) (s : Span) (ps : List Node) :
    (mk k s ps).holes = [] := by
  cases k
  case «attribute» => rw [holes]
  all_goals cases hk

theorem holes_container (s : Span) (e : Node) : (mk .container s [e]).holes = e :: e.holes := by
  rw [holes]

/-- Other nodes have the holes of their parts. -/
theorem holes_of_parts {ps : List Node} (hk : k.isAttribute = false)
    (h : ∀ e, k = .container → ps = [e] → False) (s : Span) :
    (mk k s ps).holes = ps.flatMap holes := by
  unfold holes
  split
  · cases hk
  · exact (h _ rfl rfl).elim
  · exact holesList_eq ps

theorem mem_holes_of_mem {ps : List Node} (hk : k.isAttribute = false) (s : Span)
    {p e : Node} (hp : p ∈ ps) (he : e ∈ p.holes) : e ∈ (mk k s ps).holes := by
  have hlist : e ∈ holesList ps := by
    rw [holesList_eq]
    exact List.mem_flatMap.2 ⟨p, hp, he⟩
  unfold holes
  split
  · cases hk
  · obtain rfl := List.mem_singleton.1 hp
    exact List.mem_cons_of_mem _ he
  · exact hlist

/-- Whether no hole of a tree chooses between markup, outside attributes. -/
def HasNoChoice (names : List Text) (n : Node) : Prop :=
  ∀ e ∈ n.holes, Choice.isLowerable names e = false

theorem lowerChoicesList_of_unchanged {a : Bool} {ns : List Node}
    (h : ∀ n ∈ ns, ∀ bs, n.lowerChoices names a bs = (n, bs)) (bs : List Block) :
    lowerChoicesList names a ns bs = (ns, bs) := by
  induction ns with
  | nil => rfl
  | cons n ns ih =>
    rw [lowerChoicesList, h n List.mem_cons_self]
    dsimp only
    rw [ih fun m hm => h m (List.mem_cons_of_mem _ hm)]

/-- Attributes are left as they are. -/
theorem lowerChoices_inAttribute (n : Node) (bs : List Block) :
    n.lowerChoices names true bs = (n, bs) := by
  induction n generalizing bs with
  | mk k s ps ih =>
    rw [lowerChoices_mk, Bool.true_or, lowerChoicesList_of_unchanged ih]
    dsimp only
    split <;> rfl

theorem lowerChoices_of_isAttribute (hk : k.isAttribute = true) (s : Span)
    (ps : List Node) (bs : List Block) :
    (mk k s ps).lowerChoices names false bs = (mk k s ps, bs) := by
  rw [lowerChoices_mk, hk, Bool.or_true,
    lowerChoicesList_of_unchanged fun n _ bs => lowerChoices_inAttribute n bs]
  dsimp only
  split <;> rfl

/-- No choice is left. -/
theorem hasNoChoice_lowerChoices (n : Node) (bs : List Block) :
    (n.lowerChoices names false bs).1.HasNoChoice names := by
  induction n generalizing bs with
  | mk k s ps ih =>
    cases hk : k.isAttribute with
    | true =>
      rw [lowerChoices_of_isAttribute hk, HasNoChoice, holes_of_isAttribute hk]
      simp
    | false =>
      have hps := forall₂_lowerChoicesList (R := fun _ m => m.HasNoChoice names) ih bs
      rw [lowerChoices_mk, hk, Bool.or_false]
      dsimp only
      generalize lowerChoicesList names false ps bs = r at hps
      obtain ⟨qs, bs'⟩ := r
      dsimp only at hps ⊢
      have hqs (q : Node) (hq : q ∈ qs) : q.HasNoChoice names := by
        obtain ⟨p, -, hq⟩ := exists_of_forall₂ hps hq
        exact hq
      split
      · next e =>
        split
        · -- The name of a block chooses nothing, and has no holes.
          intro e he
          obtain rfl | he := List.mem_cons.1 he
          · rfl
          · cases he
        · next hlower =>
          rw [HasNoChoice, holes_container, List.forall_mem_cons]
          exact ⟨by simpa using hlower, hqs e List.mem_cons_self⟩
      · next h =>
        intro e he
        rw [holes_of_parts hk h] at he
        obtain ⟨q, hq, he⟩ := List.mem_flatMap.1 he
        exact hqs q hq e he

/-- A tree without choices is left as it is. -/
theorem lowerChoices_of_hasNoChoice {n : Node} (h : n.HasNoChoice names) (bs : List Block) :
    n.lowerChoices names false bs = (n, bs) := by
  induction n generalizing bs with
  | mk k s ps ih =>
    cases hk : k.isAttribute with
    | true => exact lowerChoices_of_isAttribute hk s ps bs
    | false =>
      have hps (p : Node) (hp : p ∈ ps) : p.HasNoChoice names := fun e he =>
        h e (mem_holes_of_mem hk s hp he)
      rw [lowerChoices_mk, hk, Bool.or_false,
        lowerChoicesList_of_unchanged fun p hp => ih p hp (hps p hp)]
      dsimp only
      split
      · next e =>
        have he : Choice.isLowerable names e = false := h e (by rw [holes_container]; simp)
        rw [he]
        rfl
      · rfl

/-- Making blocks of lists brings up no attribute. -/
theorem hasRenamed_lowerLists {n : Node} (h : n.hasRenamed = false) (bs : List Block) :
    (n.lowerLists names bs).1.hasRenamed = false := by
  revert h
  refine lowerLists_induction (R := fun n m => n.hasRenamed = false → m.hasRenamed = false)
    (fun {k s ps qs} hps hn => ?_) (fun i _ _ => rfl) n bs
  obtain ⟨hk, hn⟩ := any_mk_eq_false.1 hn
  refine any_mk_eq_false.2 ⟨hk, fun q hq => ?_⟩
  obtain ⟨p, hp, hpq⟩ := exists_of_forall₂ hps hq
  exact hpq (hn p hp)

end Blocks

end Node

/-! ### Components -/

namespace Component

variable {c : Component} {m : Node}

/-- A component on whose markup nothing is left to do. -/
structure Stable (c : Component) : Prop where
  /-- No attribute sets the class or handles an event by the name that it had. -/
  attributes : ∀ n ∈ c.module ++ c.body, n.hasRenamed = false
  /-- No call in expression position renders a list. -/
  lists : ∀ n ∈ c.module ++ c.body, n.hasList = false
  /-- No hole chooses between markup, outside attributes. -/
  choices : ∀ n ∈ c.module ++ c.body, n.HasNoChoice c.markupNames
  /-- The variables that hold markup are known. -/
  names : Node.markupVariablesList (c.module ++ c.body) ⊆ c.markupNames

theorem mem_findMarkupNames {x : Text} : x ∈ c.findMarkupNames.markupNames ↔
    x ∈ c.markupNames ∨ x ∈ Node.markupVariablesList (c.module ++ c.body) :=
  mem_foldl_insertNew

/-- Looking for variables that are known finds nothing. -/
theorem findMarkupNames_of_subset
    (h : Node.markupVariablesList (c.module ++ c.body) ⊆ c.markupNames) : c.findMarkupNames = c := by
  have hfold (names : List Text) (h : names ⊆ c.markupNames) :
      names.foldl (fun ms n => insertNew n ms) c.markupNames = c.markupNames := by
    induction names with
    | nil => rfl
    | cons n names ih =>
      obtain ⟨hn, hnames⟩ := List.cons_subset.1 h
      have hnew : insertNew n c.markupNames = c.markupNames := if_pos hn
      rw [List.foldl_cons, hnew, ih hnames]
  rw [findMarkupNames, addMarkupNames, hfold _ h]

theorem exists_of_mem_renameAttributes
    (h : m ∈ c.renameAttributes.module ++ c.renameAttributes.body) :
    ∃ n ∈ c.module ++ c.body, m = n.renameAttributes := by
  simp only [renameAttributes, Node.renameAttributesList_eq, ← List.map_append] at h
  obtain ⟨n, hn, rfl⟩ := List.mem_map.1 h
  exact ⟨n, hn, rfl⟩

theorem exists_of_mem_lowerLists (h : m ∈ c.lowerLists.module ++ c.lowerLists.body) :
    ∃ n ∈ c.module ++ c.body, ∃ bs, m = (n.lowerLists c.markupNames bs).1 := by
  have hlist (ns : List Node) (bs : List Block) :
      List.Forall₂ (fun n m => ∃ bs, m = (n.lowerLists c.markupNames bs).1) ns
        (Node.lowerListsList c.markupNames ns bs).1 :=
    Node.forall₂_lowerListsList (fun n _ bs => ⟨bs, rfl⟩) bs
  exact Node.exists_of_forall₂ (List.rel_append (hlist _ _) (hlist _ _)) h

theorem exists_of_mem_lowerChoices (h : m ∈ c.lowerChoices.module ++ c.lowerChoices.body) :
    ∃ n ∈ c.module ++ c.body, ∃ bs, m = (n.lowerChoices c.markupNames false bs).1 := by
  have hlist (ns : List Node) (bs : List Block) :
      List.Forall₂ (fun n m => ∃ bs, m = (n.lowerChoices c.markupNames false bs).1) ns
        (Node.lowerChoicesList c.markupNames false ns bs).1 :=
    Node.forall₂_lowerChoicesList (fun n _ bs => ⟨bs, rfl⟩) bs
  exact Node.exists_of_forall₂ (List.rel_append (hlist _ _) (hlist _ _)) h

/-- The step leaves nothing to do. -/
theorem stable_lowerMarkup (c : Component) : c.lowerMarkup.Stable := by
  -- The trees that choices are looked for in have neither lists nor names to be changed.
  have hbefore (n : Node) (hn : n ∈ c.renameAttributes.findMarkupNames.lowerLists.module ++
      c.renameAttributes.findMarkupNames.lowerLists.body) :
      n.hasRenamed = false ∧ n.hasList = false := by
    obtain ⟨m, hm, bs, rfl⟩ := exists_of_mem_lowerLists hn
    obtain ⟨l, -, rfl⟩ := exists_of_mem_renameAttributes hm
    exact ⟨Node.hasRenamed_lowerLists (Node.hasRenamed_renameAttributes l) bs,
      Node.hasList_lowerLists _ bs⟩
  refine ⟨fun m hm => ?_, fun m hm => ?_, fun m hm => ?_, fun x hx => ?_⟩
  · obtain ⟨n, hn, bs, rfl⟩ := exists_of_mem_lowerChoices hm
    exact (Node.refill_lowerChoices n false bs).hasRenamed (hbefore n hn).1
  · obtain ⟨n, hn, bs, rfl⟩ := exists_of_mem_lowerChoices hm
    exact (Node.refill_lowerChoices n false bs).hasList (hbefore n hn).2
  · obtain ⟨n, hn, bs, rfl⟩ := exists_of_mem_lowerChoices hm
    exact Node.hasNoChoice_lowerChoices n bs
  · -- What holds markup now did so when the variables were looked for.
    rw [Node.markupVariablesList_eq] at hx
    obtain ⟨m, hm, hx⟩ := List.mem_flatMap.1 hx
    obtain ⟨n, hn, bs, rfl⟩ := exists_of_mem_lowerChoices hm
    refine mem_findMarkupNames.2 (.inr ?_)
    rw [Node.markupVariablesList_eq]
    exact List.mem_flatMap.2 ⟨n, hn, (Node.refill_lowerChoices n false bs).mem_markupVariables hx⟩

theorem Stable.renameAttributes_eq (h : c.Stable) : c.renameAttributes = c := by
  have hmap (ns : List Node) (hns : ∀ n ∈ ns, n.hasRenamed = false) :
      Node.renameAttributesList ns = ns := by
    rw [Node.renameAttributesList_eq]
    exact (List.map_congr_left fun n hn =>
      Node.renameAttributes_of_not_hasRenamed (hns n hn)).trans (List.map_id ns)
  obtain ⟨hmodule, hbody⟩ := List.forall_mem_append.1 h.attributes
  rw [renameAttributes, hmap _ hmodule, hmap _ hbody]

theorem Stable.lowerLists_eq (h : c.Stable) : c.lowerLists = c := by
  obtain ⟨hmodule, hbody⟩ := List.forall_mem_append.1 h.lists
  rw [lowerLists, Node.lowerListsList_of_unchanged fun n hn =>
    Node.lowerLists_of_not_hasList (hmodule n hn)]
  dsimp only
  rw [Node.lowerListsList_of_unchanged fun n hn => Node.lowerLists_of_not_hasList (hbody n hn)]

theorem Stable.lowerChoices_eq (h : c.Stable) : c.lowerChoices = c := by
  obtain ⟨hmodule, hbody⟩ := List.forall_mem_append.1 h.choices
  rw [lowerChoices, Node.lowerChoicesList_of_unchanged fun n hn =>
    Node.lowerChoices_of_hasNoChoice (hmodule n hn)]
  dsimp only
  rw [Node.lowerChoicesList_of_unchanged fun n hn =>
    Node.lowerChoices_of_hasNoChoice (hbody n hn)]

/-- The step leaves nothing to do on the markup of a component, so it does nothing when it
    is taken again. -/
theorem lowerMarkup_stable (c : Component) :
    c.lowerMarkup.Stable ∧ c.lowerMarkup.lowerMarkup = c.lowerMarkup := by
  have h := stable_lowerMarkup c
  refine ⟨h, ?_⟩
  rw [lowerMarkup, h.renameAttributes_eq, findMarkupNames_of_subset h.names, h.lowerLists_eq,
    findMarkupNames_of_subset h.names, h.lowerChoices_eq]

end Component

end Unhook
