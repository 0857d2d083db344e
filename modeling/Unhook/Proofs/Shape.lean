import Unhook.Markup.Lowering
import Unhook.Proofs.Tree

/-!
# What blocks are written from

A block is a text, and a text does not say what stood where in it. The *shape*
of a block is what it was written from: the collection, the item, the key and
the markup of a list, or the expression of a choice. Lowering is told here once
more with shapes in place of blocks (`Node.shapeLists`, `Node.shapeChoices`).

* `Shape.block`: the block that a shape is written as;
* `Node.lowerLists_shapes`, `Node.lowerChoices_shapes`: writing the shapes
  gives the blocks;
* `Component.lowerMarkup_shapes`: so it does for the whole step.
-/

namespace Unhook

/-- Whether a kind is that of attributes. -/
def Kind.isAttribute : Kind → Bool
  | .attribute _ _ => true
  | _ => false

/-- Whether a kind is that of calls in expression position. -/
def Kind.isExpressionCall : Kind → Bool
  | .call ⟨_, false⟩ _ => true
  | _ => false

/-- What a block is written from. -/
inductive Shape
  /-- A block that was there before. -/
  | given (b : Block)
  /-- A list, with the value of its key if it has one. The choices of the markup
      are placeholders. -/
  | each (names : List Text) (collection item : Node) (key : Option Node) (root : Node)
  /-- A choice between markup, when `names` hold markup. -/
  | choice (names : List Text) (e : Node)

/-- The block that a shape is written as. -/
def Shape.block : Shape → Block
  | given b => b
  | each names collection item key root => {
      text := Each.text collection.printExpression item.printPattern (key.bind Each.keyText?)
        root.printExpression
      references := Each.shownVariables names root [] }
  | choice names e => Choice.block names e

namespace Each

/-- The value of the key of markup. -/
def keyValue? : Node → Option Node
  | .mk .element _ (.mk .opening _ (_ :: _ :: attributes) :: _) =>
    (attributes.find? isKey).bind (·.parts.head?)
  | _ => none

/-- Markup without its key. -/
def keyless (n : Node) : Node := (takeKey n).1

/-- Only an element whose opening tag has a name has a key. -/
theorem keyValue?_eq_none {n : Node} (h : ∀ s t name types attributes rest,
    n = .mk .element s (.mk .opening t (name :: types :: attributes) :: rest) → False) :
    keyValue? n = none := by
  unfold keyValue?
  split
  · exact (h _ _ _ _ _ _ rfl).elim
  · rfl

theorem takeKey_snd (n : Node) : (takeKey n).2 = (keyValue? n).bind keyText? := by
  fun_cases takeKey n with
  | case1 s t name types attributes rest key => exact (Option.bind_assoc _ _ _).symm
  | case2 n h =>
    rw [keyValue?_eq_none h]
    rfl

end Each

namespace Node

mutual

/-- `Node.lowerChoices` with shapes in place of blocks. -/
def shapeChoices (names : List Text) (inAttribute : Bool) :
    Node → List Shape → Node × List Shape
  | mk k s ps, ss =>
    let inAttribute := inAttribute || k.isAttribute
    let (ps, ss) := shapeChoicesList names inAttribute ps ss
    match k, ps with
    | .container, [e] =>
      if !inAttribute && Choice.isLowerable names e then
        (mk .container s [Block.placeholderNode ss.length], ss ++ [.choice names e])
      else (mk .container s [e], ss)
    | k, ps => (mk k s ps, ss)

/-- `Node.lowerChoicesList` with shapes in place of blocks. -/
def shapeChoicesList (names : List Text) (inAttribute : Bool) :
    List Node → List Shape → List Node × List Shape
  | [], ss => ([], ss)
  | n :: ns, ss =>
    let (n, ss) := shapeChoices names inAttribute n ss
    let (ns, ss) := shapeChoicesList names inAttribute ns ss
    (n :: ns, ss)

end

/-- Lowering choices changes what holes hold, and nothing else. -/
theorem kind_shapeChoices (names : List Text) (a : Bool) (n : Node) (ss : List Shape) :
    (n.shapeChoices names a ss).1.kind = n.kind := by
  obtain ⟨k, s, ps⟩ := n
  rw [shapeChoices]
  dsimp only
  split
  · split <;> rfl
  · rfl

end Node

/-- `Each.block?` with shapes in place of blocks. -/
def Each.shape? (names : List Text) (call : Node) (ss : List Shape) :
    Option (Shape × List Shape) := do
  let (collection, callback) ← call.mapCall?
  let item ← callback.onlyPattern?
  let root ← root? callback
  let (lowered, ss) := (keyless root).shapeChoices names false ss
  return (.each names collection item (keyValue? root) lowered, ss)

namespace Node

mutual

/-- `Node.lowerLists` with shapes in place of blocks. -/
def shapeLists (names : List Text) : Node → List Shape → Node × List Shape
  | mk k s ps, ss =>
    let (ps, ss) := shapeListsList names ps ss
    match if k.isExpressionCall then Each.shape? names (mk k s ps) ss else none with
    | some (b, ss) => (Block.placeholderNode ss.length, ss ++ [b])
    | none => (mk k s ps, ss)

/-- `Node.lowerListsList` with shapes in place of blocks. -/
def shapeListsList (names : List Text) : List Node → List Shape → List Node × List Shape
  | [], ss => ([], ss)
  | n :: ns, ss =>
    let (n, ss) := shapeLists names n ss
    let (ns, ss) := shapeListsList names ns ss
    (n :: ns, ss)

end

/-! ### Writing shapes -/

/-- Writing shapes after a walk over trees, as compared with walking over trees
    with blocks. -/
def Written (blocks : List Block → Node × List Block) (shapes : List Shape → Node × List Shape) :
    Prop :=
  ∀ ss, blocks (ss.map Shape.block) = ((shapes ss).1, (shapes ss).2.map Shape.block)

theorem lowerChoicesList_written {names : List Text} {ns : List Node}
    (h : ∀ n ∈ ns, ∀ a, Written (n.lowerChoices names a) (n.shapeChoices names a)) (a : Bool)
    (ss : List Shape) : lowerChoicesList names a ns (ss.map Shape.block) =
      ((shapeChoicesList names a ns ss).1, (shapeChoicesList names a ns ss).2.map Shape.block) := by
  induction ns generalizing ss with
  | nil => rfl
  | cons n ns ih =>
    rw [lowerChoicesList, h n List.mem_cons_self]
    dsimp only
    rw [ih fun m hm => h m (List.mem_cons_of_mem _ hm)]
    rfl

/-- What lowering the choices of a node does, with a name for its test. -/
theorem lowerChoices_mk (names : List Text) (a : Bool) (k : Kind) (s : Span) (ps : List Node)
    (bs : List Block) : (mk k s ps).lowerChoices names a bs =
      let r := lowerChoicesList names (a || k.isAttribute) ps bs
      match k, r.1 with
      | .container, [e] =>
        if !(a || k.isAttribute) && Choice.isLowerable names e then
          (mk .container s [Block.placeholderNode r.2.length], r.2 ++ [Choice.block names e])
        else (mk .container s [e], r.2)
      | k, ps => (mk k s ps, r.2) := by
  cases k <;> rfl

/-- Writing the shapes of choices gives their blocks. -/
theorem lowerChoices_written (names : List Text) (n : Node) (a : Bool) :
    Written (n.lowerChoices names a) (n.shapeChoices names a) := by
  induction n generalizing a with
  | mk k s ps ih =>
    intro ss
    rw [lowerChoices_mk, shapeChoices, lowerChoicesList_written ih]
    dsimp only
    generalize (a || k.isAttribute) = b
    obtain ⟨ps', ss'⟩ := shapeChoicesList names b ps ss
    dsimp only
    split
    · split
      · simp [Shape.block]
      · rfl
    · rfl

theorem block?_written (names : List Text) (call : Node) (ss : List Shape) :
    Each.block? names call (ss.map Shape.block) =
      (Each.shape? names call ss).map fun (b, ss) => (b.block, ss.map Shape.block) := by
  unfold Each.block? Each.shape?
  cases call.mapCall? with
  | none => rfl
  | some m =>
    cases hi : m.2.onlyPattern? with
    | none => simp [hi]
    | some item =>
      cases hr : Each.root? m.2 with
      | none => simp [hi, hr]
      | some root =>
        have hk : (Each.takeKey root).1 = Each.keyless root := rfl
        simp only [hi, hr, Option.bind_eq_bind, Option.bind_some, hk, Each.takeKey_snd,
          lowerChoices_written names _ false ss, Shape.block]
        rfl

theorem lowerListsList_written {names : List Text} {ns : List Node}
    (h : ∀ n ∈ ns, Written (n.lowerLists names) (n.shapeLists names)) (ss : List Shape) :
    lowerListsList names ns (ss.map Shape.block) =
      ((shapeListsList names ns ss).1, (shapeListsList names ns ss).2.map Shape.block) := by
  induction ns generalizing ss with
  | nil => rfl
  | cons n ns ih =>
    rw [lowerListsList, h n List.mem_cons_self]
    dsimp only
    rw [ih fun m hm => h m (List.mem_cons_of_mem _ hm)]
    rfl

/-- What lowering the lists of a node does, with a name for its test. -/
theorem lowerLists_mk (names : List Text) (k : Kind) (s : Span) (ps : List Node)
    (bs : List Block) : (mk k s ps).lowerLists names bs =
      let r := lowerListsList names ps bs
      match if k.isExpressionCall then Each.block? names (mk k s r.1) r.2 else none with
      | some (b, bs) => b.place bs
      | none => (mk k s r.1, r.2) := by
  cases k with
  | call link pure => rcases link with ⟨o, _ | _⟩ <;> rfl
  | _ => rfl

/-- Writing the shapes of lists gives their blocks. -/
theorem lowerLists_written (names : List Text) (n : Node) :
    Written (n.lowerLists names) (n.shapeLists names) := by
  induction n with
  | mk k s ps ih =>
    intro ss
    rw [lowerLists_mk, shapeLists, lowerListsList_written ih]
    obtain ⟨ps', ss'⟩ := shapeListsList names ps ss
    dsimp only
    rw [block?_written]
    cases k.isExpressionCall with
    | false => rfl
    | true =>
      cases Each.shape? names (mk k s ps') ss' with
      | none => rfl
      | some b => simp [Block.place]

end Node

namespace Component

/-- `Component.lowerLists` with shapes in place of blocks. -/
def shapeLists (c : Component) (ss : List Shape) : Component × List Shape :=
  let (module, ss) := Node.shapeListsList c.markupNames c.module ss
  let (body, ss) := Node.shapeListsList c.markupNames c.body ss
  ({ c with module, body, blocks := ss.map Shape.block }, ss)

/-- `Component.lowerChoices` with shapes in place of blocks. -/
def shapeChoices (c : Component) (ss : List Shape) : Component × List Shape :=
  let (module, ss) := Node.shapeChoicesList c.markupNames false c.module ss
  let (body, ss) := Node.shapeChoicesList c.markupNames false c.body ss
  ({ c with module, body, blocks := ss.map Shape.block }, ss)

/-- The shapes of the blocks of a component whose markup has been given its
    output form. Those that were there before come first. -/
def shapes (c : Component) : List Shape :=
  let (c, ss) := c.renameAttributes.findMarkupNames.shapeLists (c.blocks.map .given)
  (c.findMarkupNames.shapeChoices ss).2

theorem lowerLists_written {c : Component} {ss : List Shape} (h : c.blocks = ss.map Shape.block) :
    c.lowerLists = (c.shapeLists ss).1 := by
  unfold lowerLists shapeLists
  rw [h, Node.lowerListsList_written fun n _ => Node.lowerLists_written _ n]
  dsimp only
  rw [Node.lowerListsList_written fun n _ => Node.lowerLists_written _ n]

theorem lowerChoices_written {c : Component} {ss : List Shape}
    (h : c.blocks = ss.map Shape.block) : c.lowerChoices = (c.shapeChoices ss).1 := by
  unfold lowerChoices shapeChoices
  rw [h, Node.lowerChoicesList_written fun n _ => Node.lowerChoices_written _ n]
  dsimp only
  rw [Node.lowerChoicesList_written fun n _ => Node.lowerChoices_written _ n]

theorem given_blocks (c : Component) : c.blocks = (c.blocks.map Shape.given).map Shape.block := by
  rw [List.map_map]
  exact (List.map_id _).symm

/-- The blocks are what their shapes are written as. -/
theorem lowerMarkup_blocks (c : Component) : c.lowerMarkup.blocks = c.shapes.map Shape.block := by
  rw [lowerMarkup, lowerLists_written (c := c.renameAttributes.findMarkupNames) (given_blocks c),
    lowerChoices_written rfl]
  rfl

end Component

end Unhook
