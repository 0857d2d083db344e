import Unhook.Proofs.Printed
import Unhook.Proofs.Reactive
import Unhook.Proofs.Shape

/-!
# What blocks record

A block records the markup variables that it shows, and only the holes of those
are replaced in its text. A list records the variables that stand alone in holes
of its markup, outside attributes; a choice records the variables that are its
branches, and nothing of the markup that is one.

* `Shape.mem_references_iff`: the variables that a block records;
* `MarkupTable.holeText_infix_fillBlock_iff`: the holes that are left in the text
  of a block when variables have been put in.
-/

namespace Unhook

variable {names : List Text} {x : Text}

namespace Node

mutual

/-- The names that stand alone in holes of a tree, outside attributes. -/
def shownNames : Node → List Text
  | mk k _ ps =>
    match k, ps with
    | .attribute _ _, _ => []
    | .container, [e] =>
      match e.identifier? with
      | some x => [x]
      | none => shownNames e
    | _, ps => shownNamesList ps

/-- The names that stand alone in holes of some trees, outside attributes. -/
def shownNamesList : List Node → List Text
  | [] => []
  | n :: ns => shownNames n ++ shownNamesList ns

end

end Node

namespace Each

theorem mem_shownVariablesList {ns : List Node}
    (h : ∀ n ∈ ns, ∀ refs, x ∈ shownVariables names n refs ↔
      x ∈ refs ∨ x ∈ names ∧ x ∈ n.shownNames) (refs : List Text) :
    x ∈ shownVariablesList names ns refs ↔ x ∈ refs ∨ x ∈ names ∧ x ∈ Node.shownNamesList ns := by
  induction ns generalizing refs with
  | nil => simp [shownVariablesList, Node.shownNamesList]
  | cons n ns ih =>
    rw [shownVariablesList, ih fun m hm => h m (List.mem_cons_of_mem _ hm), h n List.mem_cons_self,
      Node.shownNamesList, List.mem_append, or_assoc, and_or_left]

/-- A list records the variables that stand alone in its holes. -/
theorem mem_shownVariables (n : Node) (refs : List Text) :
    x ∈ shownVariables names n refs ↔ x ∈ refs ∨ x ∈ names ∧ x ∈ n.shownNames := by
  induction n generalizing refs with
  | mk k s ps ih =>
    have hlist := mem_shownVariablesList ih
    unfold shownVariables
    split
    · simp [Node.shownNames]
    · next e =>
      cases hy : e.identifier? with
      | none => simpa only [Node.shownNames, hy] using ih e (by simp) refs
      | some y =>
        simp only [Node.shownNames, hy, List.mem_singleton]
        split
        · next hy =>
          rw [mem_insertNew, or_comm]
          exact or_congr_right ⟨fun h => ⟨h ▸ List.contains_iff_mem.1 hy, h⟩, (·.2)⟩
        · next hy =>
          refine (or_iff_left ?_).symm
          rintro ⟨hx, rfl⟩
          exact hy (List.contains_iff_mem.2 hx)
    · next hattribute hhole =>
      have hnames : (Node.mk k s ps).shownNames = Node.shownNamesList ps := by
        unfold Node.shownNames
        split
        · exact (hattribute _ _ rfl).elim
        · exact (hhole _ rfl rfl).elim
        · rfl
      rw [hnames]
      exact hlist refs

end Each

namespace Choice

/-- The name that is shown for an expression that does not choose. -/
def leafName? (n : Node) : Option Text :=
  match n.kind with
  | .identifier x => if x = "undefined" then none else some x
  | _ => none

/-- The names that are branches of a choice, when `names` hold markup. -/
def branchNames (names : List Text) : Node → List Text
  | .mk .conditional s [t, a, b] =>
    if isLowerable names (.mk .conditional s [t, a, b]) then
      branchNames names a ++ branchNames names b
    else []
  | .mk (.binary .and) s [t, a] =>
    if isLowerable names (.mk (.binary .and) s [t, a]) then branchNames names a else []
  | n => (leafName? n).toList

theorem mem_leaf (n : Node) (refs : List Text) :
    x ∈ (leaf names n refs).2 ↔ x ∈ refs ∨ x ∈ names ∧ leafName? n = some x := by
  have hnone : x ∈ refs ↔ x ∈ refs ∨ x ∈ names ∧ none = some x := by simp
  unfold leaf leafName?
  generalize hk : n.kind = k
  cases k
  case identifier y =>
    dsimp only
    split
    · exact hnone
    · dsimp only
      rw [Option.some.injEq]
      split
      · next hy =>
        rw [mem_insertNew, or_comm]
        exact or_congr_right
          ⟨fun h => ⟨h ▸ List.contains_iff_mem.1 hy, h.symm⟩, fun h => h.2.symm⟩
      · next hy =>
        refine (or_iff_left ?_).symm
        rintro ⟨hx, rfl⟩
        exact hy (List.contains_iff_mem.2 hx)
  all_goals exact hnone

/-- A choice records the variables that are its branches. -/
theorem mem_render (n : Node) (refs : List Text) :
    x ∈ (render names n refs).2 ↔ x ∈ refs ∨ x ∈ names ∧ x ∈ branchNames names n := by
  fun_induction render names n refs
  case case1 refs hlower _ refs₁ ha _ refs₂ hb iha ihb =>
    rw [ha] at iha
    rw [hb] at ihb
    rw [branchNames, if_pos hlower, List.mem_append, and_or_left, ← or_assoc, ← iha, ← ihb]
  case case2 hlower =>
    rw [branchNames, if_neg hlower, mem_leaf]
    exact or_congr_right (and_congr_right fun _ => ⟨nofun, nofun⟩)
  case case3 refs hlower _ refs₁ ha iha =>
    rw [ha] at iha
    rw [branchNames, if_pos hlower, ← iha]
  case case4 hlower =>
    rw [branchNames, if_neg hlower, mem_leaf]
    exact or_congr_right (and_congr_right fun _ => ⟨nofun, nofun⟩)
  case case5 hconditional hand =>
    rw [branchNames, mem_leaf, Option.mem_toList]
    · exact hconditional
    · exact hand

end Choice

/-- Whether the block of a shape records a variable. -/
def Shape.Records (x : Text) : Shape → Prop
  | given b => x ∈ b.references
  | each names _ _ _ root => x ∈ names ∧ x ∈ root.shownNames
  | choice names e => x ∈ names ∧ x ∈ Choice.branchNames names e

/-- The references of a block are the variables that its shape records. -/
theorem Shape.mem_references_iff (y : Shape) : x ∈ y.block.references ↔ y.Records x := by
  cases y with
  | given b => exact Iff.rfl
  | each names collection item key root =>
    exact (Each.mem_shownVariables root []).trans (or_iff_right List.not_mem_nil)
  | choice names e => exact (Choice.mem_render e []).trans (or_iff_right List.not_mem_nil)

namespace MarkupTable

variable {t : MarkupTable}

/-- Whether a value that is put into a text for one of `refs`, in their order,
    spells out a hole that holds `x`, and `x` is not replaced after it. -/
def Spells (t : MarkupTable) (x : Text) (b : Block) : Prop :=
  ∃ before w after u, b.references = before ++ w :: after ∧ x ∉ after ∧
    holeText w <:+: (t.fillBlock { b with references := before }).text ∧
    t.text? w = some u ∧ holeText x <:+: u

theorem spells_cons {x w text : Text} {refs : List Text} :
    t.Spells x ⟨text, w :: refs⟩ ↔
      (x ∉ refs ∧ ∃ u, t.text? w = some u ∧ holeText w <:+: text ∧ holeText x <:+: u) ∨
      t.Spells x ⟨(t.fillBlock ⟨text, [w]⟩).text, refs⟩ := by
  constructor
  · rintro ⟨_ | ⟨w', before⟩, y, after, u, hrefs, hx, hy, hu, hxu⟩
    · cases hrefs
      exact .inl ⟨hx, u, hu, hy, hxu⟩
    · cases hrefs
      exact .inr ⟨before, y, after, u, rfl, hx, hy, hu, hxu⟩
  · rintro (⟨hx, u, hu, hw, hxu⟩ | ⟨before, y, after, u, hrefs, hx, hy, hu, hxu⟩)
    · exact ⟨[], w, refs, u, rfl, hx, hw, hu, hxu⟩
    · exact ⟨w :: before, y, after, u, congrArg (w :: ·) hrefs, hx, hy, hu, hxu⟩

/-- What putting in one variable leaves of the holes that hold another, or the
    same. -/
theorem holeText_infix_fillOne_iff (ht : t.Bracketed) {x v : Text}
    (hx : t.text? x = some v) (w text : Text) :
    holeText x <:+: (t.fillBlock ⟨text, [w]⟩).text ↔ x ≠ w ∧ holeText x <:+: text ∨
      ∃ u, t.text? w = some u ∧ holeText w <:+: text ∧ holeText x <:+: u := by
  cases hw : t.text? w with
  | none =>
    have hne : x ≠ w := fun h => by
      rw [h, hw] at hx
      cases hx
    simp [fillBlock, hw, hne]
  | some u =>
    have hfill : (t.fillBlock ⟨text, [w]⟩).text = Text.replaceAll (holeText w) u text := by
      simp [fillBlock, hw]
    rw [hfill, Text.infix_replaceAll_iff (ht.name x v hx) (ht.name w u hw) (ht.text w u hw)]
    simp

/-- What is left of the holes that hold a markup variable, in the text of a block:
    they are there as before if the block does not record it, and else only if a
    value that is put in spells one out. -/
theorem holeText_infix_fillBlock_iff (ht : t.Bracketed) {x v : Text}
    (hx : t.text? x = some v) (b : Block) : holeText x <:+: (t.fillBlock b).text ↔
      x ∉ b.references ∧ holeText x <:+: b.text ∨ t.Spells x b := by
  obtain ⟨text, refs⟩ := b
  induction refs generalizing text with
  | nil => simp [fillBlock, Spells]
  | cons w refs ih =>
    have hstep : (t.fillBlock ⟨text, w :: refs⟩).text =
        (t.fillBlock ⟨(t.fillBlock ⟨text, [w]⟩).text, refs⟩).text := rfl
    rw [hstep, ih, spells_cons, holeText_infix_fillOne_iff ht hx, and_or_left, or_assoc,
      ← and_assoc, List.mem_cons, not_or, and_comm (a := x ≠ w)]

end MarkupTable

end Unhook
