import Unhook.Proofs.Recorded

/-!
# What a choice shows

The text of a choice is an if/else tree, written out: tests, and what is shown at
the leaves. Whatever the tests come out as, the leaf that is shown is what the
expression selects, and nothing is shown where it selects nothing.

An expression that chooses between no markup is an *operand* as a whole, also when
it is a conditional: it is shown as a hole, and what it evaluates to is not looked at.

* `Branching`: if/else trees, what they are written as and what they show;
* `Choice.selected`: the operand that a choice selects;
* `Choice.outcome`: what an expression comes down to, operands looked into;
* `Choice.render_eq_text`: a choice is written as its tree;
* `Choice.block_shows_selected`: the tree shows what the choice selects.
-/

namespace Unhook

/-- An if/else tree, with the texts of tests and leaves. -/
inductive Branching
  | leaf (text : Text)
  | ifElse (test : Text) (yes no : Branching)
  | ifOnly (test : Text) (yes : Branching)

namespace Branching

/-- A block that shows one of two texts. -/
def withElse (test yes no : Text) : Text :=
  "\x7b#if " ++ test ++ "\x7d\n" ++ yes ++ "\n\x7b:else\x7d\n" ++ no ++ "\n\x7b/if\x7d\n"

/-- A block that shows a text or nothing. -/
def withoutElse (test yes : Text) : Text :=
  "\x7b#if " ++ test ++ "\x7d\n" ++ yes ++ "\n\x7b/if\x7d"

/-- What a tree is written as. -/
def text : Branching → Text
  | leaf t => t
  | ifElse test yes no => withElse test yes.text no.text
  | ifOnly test yes => withoutElse test yes.text

/-- The leaf that a tree shows, when tests come out as `truth` says; nothing where there
    is no leaf to show. -/
def shown (truth : Text → Bool) : Branching → Text
  | leaf t => t
  | ifElse test yes no => if truth test then yes.shown truth else no.shown truth
  | ifOnly test yes => if truth test then yes.shown truth else []

/-- The tests of a tree, from left to right. -/
def tests : Branching → List Text
  | leaf _ => []
  | ifElse test yes no => test :: (yes.tests ++ no.tests)
  | ifOnly test yes => test :: yes.tests

/-- The leaves of a tree, from left to right. -/
def leaves : Branching → List Text
  | leaf t => [t]
  | ifElse _ yes no => yes.leaves ++ no.leaves
  | ifOnly _ yes => yes.leaves

end Branching

namespace Choice

/-! ### Operands -/

/-- What is shown for an operand: markup as it is, nothing for `null` and `undefined`,
    and anything else in a hole. -/
def operandText (n : Node) : Text :=
  match n.kind with
  | .null => []
  | .identifier x => if x = "undefined" then [] else holeText x
  | .element | .fragment => n.printExpression
  | _ => holeText n.printExpression

/-- The operand that an expression selects, when its tests come out as `truth` says. -/
def selected (names : List Text) (truth : Text → Bool) : Node → Option Node
  | .mk .conditional s [t, a, b] =>
    if isLowerable names (.mk .conditional s [t, a, b]) then
      if truth t.printExpression then selected names truth a else selected names truth b
    else some (.mk .conditional s [t, a, b])
  | .mk (.binary .and) s [t, a] =>
    if isLowerable names (.mk (.binary .and) s [t, a]) then
      if truth t.printExpression then selected names truth a else none
    else some (.mk (.binary .and) s [t, a])
  | n => some n

/-- What an expression comes down to, when its tests come out as `truth` says, if it does
    not come down to a test that is false. -/
def outcome (truth : Text → Bool) : Node → Option Node
  | .mk .conditional _ [t, a, b] =>
    if truth t.printExpression then outcome truth a else outcome truth b
  | .mk (.binary .and) _ [t, a] =>
    if truth t.printExpression then outcome truth a else none
  | n => some n

/-- The tests of an expression, from left to right. -/
def testsOf (names : List Text) : Node → List Node
  | .mk .conditional s [t, a, b] =>
    if isLowerable names (.mk .conditional s [t, a, b]) then
      t :: (testsOf names a ++ testsOf names b)
    else []
  | .mk (.binary .and) s [t, a] =>
    if isLowerable names (.mk (.binary .and) s [t, a]) then t :: testsOf names a else []
  | _ => []

/-- The operands of an expression, from left to right. -/
def operands (names : List Text) : Node → List Node
  | .mk .conditional s [t, a, b] =>
    if isLowerable names (.mk .conditional s [t, a, b]) then operands names a ++ operands names b
    else [.mk .conditional s [t, a, b]]
  | .mk (.binary .and) s [t, a] =>
    if isLowerable names (.mk (.binary .and) s [t, a]) then operands names a
    else [.mk (.binary .and) s [t, a]]
  | n => [n]

/-- The operand that an expression selects comes down to what the expression does. -/
theorem bind_outcome_selected (names : List Text) (truth : Text → Bool) (n : Node) :
    (selected names truth n).bind (outcome truth) = outcome truth n := by
  fun_induction selected names truth n
  case case1 htest iha => rw [iha, outcome, if_pos htest]
  case case2 htest ihb => rw [ihb, outcome, if_neg htest]
  case case4 htest iha => rw [iha, outcome, if_pos htest]
  case case5 htest => rw [outcome, if_neg htest, Option.bind_none]
  case case3 | case6 | case7 => rfl

/-- An expression has tests if it is a choice, and else it is one operand. -/
theorem testsOf_eq_nil_iff {names : List Text} (n : Node) :
    testsOf names n = [] ↔ isLowerable names n = false := by
  fun_cases testsOf names n
  case case1 hlower | case3 hlower => simp [hlower]
  case case2 hlower | case4 hlower => simpa using hlower
  case case5 hconditional hand =>
    rw [isLowerable]
    · simp
    · simpa using hconditional
    · simpa using hand

/-! ### Trees of choices -/

/-- The if/else tree of an expression. -/
def branching (names : List Text) : Node → Branching
  | .mk .conditional s [t, a, b] =>
    if isLowerable names (.mk .conditional s [t, a, b]) then
      .ifElse t.printExpression (branching names a) (branching names b)
    else .leaf (operandText (.mk .conditional s [t, a, b]))
  | .mk (.binary .and) s [t, a] =>
    if isLowerable names (.mk (.binary .and) s [t, a]) then
      .ifOnly t.printExpression (branching names a)
    else .leaf (operandText (.mk (.binary .and) s [t, a]))
  | n => .leaf (operandText n)

theorem leaf_fst (names : List Text) (n : Node) (refs : List Text) :
    (leaf names n refs).1 = operandText n := by
  obtain ⟨k, s, ps⟩ := n
  cases k
  case identifier x =>
    simp only [leaf, operandText, Node.kind_mk]
    split <;> rfl
  all_goals rfl

/-- A choice is written as its tree, whatever has been shown before. -/
theorem render_eq_text (names : List Text) (n : Node) (refs : List Text) :
    (render names n refs).1 = (branching names n).text := by
  fun_induction render names n refs
  case case1 hlower _ _ ha _ _ hb iha ihb =>
    rw [ha] at iha
    rw [hb] at ihb
    rw [branching, if_pos hlower, Branching.text, ← iha, ← ihb]
    rfl
  case case2 hlower =>
    rw [branching, if_neg hlower, leaf_fst, Branching.text]
  case case3 hlower _ _ ha iha =>
    rw [ha] at iha
    rw [branching, if_pos hlower, Branching.text, ← iha]
    rfl
  case case4 hlower =>
    rw [branching, if_neg hlower, leaf_fst, Branching.text]
  case case5 hconditional hand =>
    rw [branching, leaf_fst, Branching.text]
    · exact hconditional
    · exact hand

/-- The tree shows the operand that the expression selects. -/
theorem shown_branching (names : List Text) (truth : Text → Bool) (n : Node) :
    (branching names n).shown truth = (selected names truth n).elim [] operandText := by
  fun_induction branching names n
  case case1 hlower iha ihb =>
    rw [selected, if_pos hlower, Branching.shown, iha, ihb]
    split <;> rfl
  case case3 hlower iha =>
    rw [selected, if_pos hlower, Branching.shown, iha]
    split <;> rfl
  case case2 hlower | case4 hlower =>
    rw [selected, if_neg hlower]
    rfl
  case case5 hconditional hand =>
    rw [selected]
    · rfl
    · exact hconditional
    · exact hand

theorem tests_branching (names : List Text) (n : Node) :
    (branching names n).tests = (testsOf names n).map Node.printExpression := by
  fun_induction branching names n
  case case1 hlower iha ihb =>
    rw [testsOf, if_pos hlower, Branching.tests, iha, ihb, List.map_cons, List.map_append]
  case case3 hlower iha =>
    rw [testsOf, if_pos hlower, Branching.tests, iha, List.map_cons]
  case case2 hlower | case4 hlower =>
    rw [testsOf, if_neg hlower]
    rfl
  case case5 hconditional hand =>
    rw [testsOf]
    · rfl
    · exact hconditional
    · exact hand

theorem leaves_branching (names : List Text) (n : Node) :
    (branching names n).leaves = (operands names n).map operandText := by
  fun_induction branching names n
  case case1 hlower iha ihb =>
    rw [operands, if_pos hlower, Branching.leaves, iha, ihb, List.map_append]
  case case3 hlower iha =>
    rw [operands, if_pos hlower, Branching.leaves, iha]
  case case2 hlower | case4 hlower =>
    rw [operands, if_neg hlower]
    rfl
  case case5 hconditional hand =>
    rw [operands]
    · rfl
    · exact hconditional
    · exact hand

/-! ### Markup variables -/

theorem leafName?_eq_some {n : Node} {x : Text} :
    leafName? n = some x ↔ x ≠ "undefined" ∧ n.identifier? = some x := by
  rw [Node.identifier?_eq_some, leafName?]
  generalize n.kind = k
  cases k
  case identifier y =>
    dsimp only
    rw [Kind.identifier.injEq]
    split
    · next hy =>
      constructor
      · intro h
        cases h
      · rintro ⟨hx, rfl⟩
        exact (hx hy).elim
    · next hy =>
      rw [Option.some.injEq]
      exact ⟨fun h => ⟨h ▸ hy, h⟩, fun h => h.2⟩
  all_goals simp

/-- The names that are branches of a choice are those that are operands. -/
theorem mem_branchNames {names : List Text} {x : Text} (n : Node) : x ∈ branchNames names n ↔
    x ≠ "undefined" ∧ ∃ o ∈ operands names n, o.identifier? = some x := by
  have hleaf (n : Node) : leafName? n = some x ↔
      x ≠ "undefined" ∧ ∃ o ∈ [n], o.identifier? = some x := by
    rw [leafName?_eq_some]
    simp
  fun_induction operands names n
  case case1 hlower iha ihb =>
    rw [branchNames, if_pos hlower, List.mem_append]
    refine (or_congr iha ihb).trans ?_
    rw [← and_or_left]
    simp only [List.mem_append, or_and_right, exists_or]
  case case3 hlower iha =>
    rw [branchNames, if_pos hlower]
    exact iha
  case case2 hlower | case4 hlower =>
    rw [branchNames, if_neg hlower, ← hleaf]
    simp [leafName?]
  case case5 hconditional hand =>
    rw [branchNames, Option.mem_toList, hleaf]
    · exact hconditional
    · exact hand

theorem nodup_leaf {names refs : List Text} (n : Node) (h : refs.Nodup) :
    (leaf names n refs).2.Nodup := by
  unfold leaf
  split
  · exact h
  · split
    · exact h
    · dsimp only
      split
      · exact nodup_insertNew h
      · exact h
  all_goals exact h

/-- A variable that is shown twice is recorded once. -/
theorem nodup_render {names refs : List Text} (n : Node) (h : refs.Nodup) :
    (render names n refs).2.Nodup := by
  fun_induction render names n refs
  case case1 ha _ _ hb iha ihb =>
    rw [ha] at iha
    rw [hb] at ihb
    exact ihb (iha h)
  case case3 ha iha =>
    rw [ha] at iha
    exact iha h
  case case2 | case4 | case5 => exact nodup_leaf _ h

/-! ### Blocks of choices -/

/-- The text of a choice is that of an if/else tree which shows, whatever its tests come
    out as, the operand that the choice selects, and that operand comes down to what the
    choice does. The tree has each test and each operand once, in their order, and the
    block records the markup variables that are operands, each once. -/
theorem block_shows_selected (names : List Text) (e : Node) : ∃ tree : Branching,
    (block names e).text = tree.text ∧ (tree.tests = [] ↔ isLowerable names e = false) ∧
      (∀ truth, tree.shown truth = (selected names truth e).elim [] operandText ∧
        (selected names truth e).bind (outcome truth) = outcome truth e) ∧
      tree.tests = (testsOf names e).map Node.printExpression ∧
      tree.leaves = (operands names e).map operandText ∧
      (block names e).references.Nodup ∧
      ∀ x, x ∈ (block names e).references ↔
        x ∈ names ∧ x ≠ "undefined" ∧ ∃ o ∈ operands names e, o.identifier? = some x := by
  have htests := tests_branching names e
  have hbranches : (branching names e).tests = [] ↔ isLowerable names e = false := by
    rw [htests, List.map_eq_nil_iff]
    exact testsOf_eq_nil_iff e
  refine ⟨branching names e, render_eq_text names e [], hbranches, fun truth => ?_, htests,
    leaves_branching names e, nodup_render e List.nodup_nil, fun x => ?_⟩
  · exact ⟨shown_branching names truth e, bind_outcome_selected names truth e⟩
  · refine (Shape.mem_references_iff (.choice names e)).trans ?_
    exact and_congr_right fun _ => mem_branchNames e

end Choice

end Unhook
