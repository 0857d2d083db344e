import Mathlib.Data.List.Forall2
import Unhook.Proofs.Shape

/-!
# Hooks in blocks

Lists and choices are written as blocks before hooks are taken apart, so a call of
a hook that stands in one of them is left in the text of its block.
-/

namespace Unhook

/-! ### Calls of hooks -/

/-- The names of blocks are no names of hooks. -/
theorem Hook.ofName?_placeholder (i : Nat) : ofName? (Block.placeholder i) = none := by
  refine List.find?_eq_none.2 fun h _ heq => ?_
  have hhead : h.name.head? = some '_' := congrArg List.head? (of_decide_eq_true heq)
  cases h <;> cases hhead

namespace Node

/-- Whether a tree has a call of one of some hooks, in expression position. -/
def calls (p : Hook → Bool) (n : Node) : Bool := n.any fun m => m.expressionHook?.any p

theorem calls_mk (p : Hook → Bool) (k : Kind) (s : Span) (ps : List Node) :
    (mk k s ps).calls p = ((mk k s ps).expressionHook?.any p || ps.any (calls p)) := by
  rw [calls, any_mk, anyList_eq]
  rfl

/-- The hook that a function is. -/
def calleeHook? (n : Node) : Option Hook := n.calleeName?.bind Hook.ofName?

theorem calleeName?_member (o : Bool) (x : Text) (s : Span) (n : Node) :
    (mk (.member ⟨o, false⟩ x) s [n]).calleeName? =
      n.identifier?.bind fun y => if y = frameworkNamespace then some x else none := by
  obtain ⟨k, -, -⟩ := n
  cases k <;> rfl

theorem expressionHook?_mk (k : Kind) (s : Span) (ps : List Node) :
    (mk k s ps).expressionHook? = if k.isExpressionCall then ps.head?.bind calleeHook? else none := by
  cases k with
  | call l pure =>
    obtain ⟨o, e⟩ := l
    cases e <;> cases ps <;> rfl
  | _ => rfl

/-! ### Lists -/

end Node

/-- The trees that the block of a list is written from: the collection, the item, the
    markup and the key, if that is written. -/
def Each.written? (call : Node) : Option (List Node) := do
  let (collection, callback) ← call.mapCall?
  let item ← callback.onlyPattern?
  let root ← root? callback
  return [collection, item, keyless root] ++
    ((keyValue? root).filter fun v => (keyText? v).isSome).toList

namespace Node

/-- Whether a node is a call that renders a list. -/
def rendersList (n : Node) : Bool := n.kind.isExpressionCall && (Each.written? n).isSome

mutual

/-- Whether a tree has a call of one of some hooks outside the lists that it renders. -/
def callsOpenly (p : Hook → Bool) : Node → Bool
  | mk k s ps => !(mk k s ps).rendersList && ((mk k s ps).expressionHook?.any p || anyOpenly p ps)

/-- Whether one of some trees has a call of one of some hooks outside lists. -/
def anyOpenly (p : Hook → Bool) : List Node → Bool
  | [] => false
  | n :: ns => n.callsOpenly p || anyOpenly p ns

end

variable {n : Node}

/-- Whether a list that a tree renders has a call of one of some hooks, outside the
    lists within it. -/
def freezesInList (p : Hook → Bool) (n : Node) : Bool :=
  n.any fun m => m.rendersList && ((Each.written? m).getD []).any (callsOpenly p)

theorem anyOpenly_eq (p : Hook → Bool) (ns : List Node) : anyOpenly p ns = ns.any (callsOpenly p) := by
  induction ns with
  | nil => rfl
  | cons n ns ih => rw [anyOpenly, ih, List.any_cons]

theorem eq_of_isExpressionCall (h : n.kind.isExpressionCall = true) :
    ∃ o pure s ps, n = mk (.call ⟨o, false⟩ pure) s ps := by
  obtain ⟨k, s, ps⟩ := n
  unfold Kind.isExpressionCall at h
  split at h
  · next o pure heq =>
    obtain rfl := heq
    exact ⟨o, pure, s, ps, rfl⟩
  · cases h

theorem eq_of_rendersList (h : n.rendersList = true) :
    ∃ o pure s ps, n = mk (.call ⟨o, false⟩ pure) s ps :=
  eq_of_isExpressionCall (Bool.and_eq_true_iff.1 h).1

theorem identifier?_of_isExpressionCall (h : n.kind.isExpressionCall = true) :
    n.identifier? = none := by
  obtain ⟨_, _, _, _, rfl⟩ := eq_of_isExpressionCall h
  rfl

/-- A tree in which the calls that render lists are names of blocks. -/
inductive Unlisted : Node → Node → Prop
  | list {n : Node} (i : Nat) (h : n.rendersList = true) : Unlisted n (Block.placeholderNode i)
  | kept {k : Kind} {s : Span} {ps qs : List Node} (h : (mk k s ps).rendersList = false)
      (hps : List.Forall₂ Unlisted ps qs) : Unlisted (mk k s ps) (mk k s qs)

/-- The markup that the only one of some statements returns. -/
def returnedMarkup? : List Node → Option Node
  | [mk .returnStatement _ [e]] => if e.isMarkup then some e else none
  | _ => none

theorem root?_eq (f : Node) : Each.root? f =
    if f.body.kind = .functionBody then returnedMarkup? f.body.statements
    else if f.body.isMarkup then some f.body else none := by
  unfold Each.root?
  split
  · next hk =>
    rw [if_pos hk]
    rfl
  · next hk => rw [if_neg hk]

/-- The pattern of the only one of some parameters. -/
def onlyParameter? : List Node → Option Node
  | [mk (.param _ _) _ (_ :: p :: _)] => some p
  | _ => none

/-- The pattern of the only parameter of a list of parameters. -/
def parameterOf? (n : Node) : Option Node :=
  onlyParameter? (n.parts.filter fun p => p.kind ≠ .thisParam)

theorem onlyPattern?_eq (f : Node) : f.onlyPattern? = match f with
    | mk (.arrow _) _ [_, ps, _, _] => parameterOf? ps
    | mk (.function _) _ [_, _, ps, _, _] => parameterOf? ps
    | _ => none := by
  obtain ⟨k, s, ps⟩ := f
  cases k
  case arrow => rcases ps with _ | ⟨a, _ | ⟨b, _ | ⟨c, _ | ⟨d, _ | ⟨e, ps⟩⟩⟩⟩⟩ <;> rfl
  case function =>
    rcases ps with _ | ⟨a, _ | ⟨b, _ | ⟨c, _ | ⟨d, _ | ⟨e, _ | ⟨x, ps⟩⟩⟩⟩⟩⟩ <;> rfl
  all_goals rfl

/-- A call that renders a list calls a member of the collection. -/
theorem parts_of_rendersList (h : n.rendersList = true) :
    ∃ l x s o rest, n.parts = mk (.member l x) s o :: rest := by
  have hwritten := (Bool.and_eq_true_iff.1 h).2
  unfold Each.written? at hwritten
  cases hmap : n.mapCall? with
  | none =>
    rw [hmap] at hwritten
    cases hwritten
  | some m =>
    unfold mapCall? at hmap
    split at hmap
    · exact ⟨_, _, _, _, _, rfl⟩
    · cases hmap

namespace Unlisted

variable {n m : Node} {k : Kind} {s : Span} {ps qs : List Node} {p : Node → Bool}

theorem of_kind (h : Unlisted (Node.mk k s ps) m) (hk : k.isExpressionCall = false) :
    ∃ qs, m = Node.mk k s qs ∧ List.Forall₂ Unlisted ps qs := by
  cases h with
  | list i h => simp [rendersList, hk] at h
  | kept _ hps => exact ⟨_, rfl, hps⟩

theorem identifier? (h : Unlisted n m) : m.identifier? = n.identifier? ∨
    n.kind.isExpressionCall = true ∧ ∃ i, m.identifier? = some (Block.placeholder i) := by
  cases h with
  | list i h => exact .inr ⟨(Bool.and_eq_true_iff.1 h).1, i, rfl⟩
  | @kept k => exact .inl (by cases k <;> rfl)

theorem calleeHook? (h : Unlisted n m) : m.calleeHook? = n.calleeHook? := by
  cases h with
  | @list n i h =>
    have hnone : n.calleeName? = none := by
      obtain ⟨_, _, _, _, rfl⟩ := eq_of_rendersList h
      rfl
    rw [Node.calleeHook?, Node.calleeHook?, hnone]
    exact Hook.ofName?_placeholder i
  | @kept k s ps qs h hps =>
    cases k
    case member l x =>
      obtain ⟨o, e⟩ := l
      cases hps with
      | nil => rfl
      | cons hpq hrest =>
        cases hrest with
        | cons => simp [Node.calleeHook?, Node.calleeName?]
        | nil =>
          cases e with
          | true => rfl
          | false =>
            rw [Node.calleeHook?, Node.calleeHook?, calleeName?_member, calleeName?_member]
            rcases hpq.identifier? with heq | ⟨hcall, i, heq⟩
            · rw [heq]
            · have hnone := identifier?_of_isExpressionCall hcall
              have hne : Block.placeholder i ≠ frameworkNamespace := fun h => by
                have hhead := congrArg List.head? h
                cases hhead
              rw [heq, hnone, Option.bind_some, if_neg hne]
              rfl
    all_goals rfl

theorem expressionHook? (h : List.Forall₂ Unlisted ps qs) :
    (Node.mk k s qs).expressionHook? = (Node.mk k s ps).expressionHook? := by
  rw [expressionHook?_mk, expressionHook?_mk]
  cases h with
  | nil => rfl
  | cons hpq _ => rw [List.head?_cons, List.head?_cons, Option.bind_some, Option.bind_some,
      hpq.calleeHook?]

/-- The calls of hooks that are left are those outside lists. -/
theorem calls (h : Unlisted n m) (p : Hook → Bool) : m.calls p = n.callsOpenly p := by
  induction n generalizing m with
  | mk k s ps ih =>
    cases h with
    | list i h =>
      rw [callsOpenly, h]
      rfl
    | kept h hps =>
      rw [callsOpenly, h, calls_mk, expressionHook? hps, anyOpenly_eq]
      refine congrArg _ ?_
      clear h
      induction hps with
      | nil => rfl
      | cons hpq _ ihps =>
        rw [List.any_cons, List.any_cons, ih _ List.mem_cons_self hpq,
          ihps fun n hn => ih n (List.mem_cons_of_mem _ hn)]

/-! #### What a list is written from -/

/-- What is said of nodes by their kind, and does not hold of calls and names. -/
theorem of_kinds {p : Kind → Bool} (hcall : ∀ l b, p (.call l b) = false)
    (hname : ∀ x, p (.identifier x) = false) (h : Unlisted n m) : p m.kind = p n.kind := by
  cases h with
  | @list n i h =>
    obtain ⟨_, _, _, _, rfl⟩ := eq_of_rendersList h
    exact (hname _).trans (hcall _ _).symm
  | kept => rfl

theorem isMarkup (h : Unlisted n m) : m.isMarkup = n.isMarkup :=
  h.of_kinds (p := fun k => (Node.mk k Span.zero []).isMarkup) (fun _ _ => rfl) fun _ => rfl

theorem isFunction (h : Unlisted n m) : m.isFunction = n.isFunction :=
  h.of_kinds (p := fun k => (Node.mk k Span.zero []).isFunction) (fun _ _ => rfl) fun _ => rfl

theorem isDirective (h : Unlisted n m) : m.isDirective = n.isDirective :=
  h.of_kinds (p := fun k => (Node.mk k Span.zero []).isDirective) (fun _ _ => rfl) fun _ => rfl

theorem isKey (h : Unlisted n m) : Each.isKey m = Each.isKey n :=
  h.of_kinds (p := fun k => k = .attribute none "key") (fun _ _ => rfl) fun _ => rfl

theorem absent : Unlisted Node.absent Node.absent := .kept rfl .nil

theorem body (h : Unlisted n m) : Unlisted n.body m.body := by
  cases h with
  | @list n i h =>
    obtain ⟨_, _, _, _, rfl⟩ := eq_of_rendersList h
    exact absent
  | @kept k s ps qs h hps =>
    cases k
    case arrow =>
      rcases hps with _ | ⟨_, _ | ⟨_, _ | ⟨_, _ | ⟨hb, _ | _⟩⟩⟩⟩
      case cons.cons.cons.cons.nil => exact hb
      all_goals exact absent
    case function =>
      rcases hps with _ | ⟨_, _ | ⟨_, _ | ⟨_, _ | ⟨_, _ | ⟨hb, _ | _⟩⟩⟩⟩⟩
      case cons.cons.cons.cons.cons.nil => exact hb
      all_goals exact absent
    all_goals exact absent

theorem filter (hp : ∀ {n m}, Unlisted n m → p m = p n)
    (h : List.Forall₂ Unlisted ps qs) : List.Forall₂ Unlisted (ps.filter p) (qs.filter p) := by
  induction h with
  | nil => exact .nil
  | cons hpq _ ih =>
    rw [List.filter_cons, List.filter_cons, hp hpq]
    split
    · exact .cons hpq ih
    · exact ih

theorem statements (h : Unlisted n m) : List.Forall₂ Unlisted n.statements m.statements := by
  cases h with
  | list i h =>
    obtain ⟨_, _, _, _, rfl⟩ := eq_of_rendersList h
    exact .nil
  | @kept k s ps qs h hps =>
    cases k
    case functionBody => exact filter (fun h => by rw [h.isDirective]) hps
    all_goals exact .nil

theorem returnedMarkup? (h : List.Forall₂ Unlisted ps qs) :
    Option.Rel Unlisted (Node.returnedMarkup? ps) (Node.returnedMarkup? qs) := by
  rcases h with _ | @⟨n, m, _, _, hpq, _ | ⟨_, _⟩⟩
  · exact .none
  · cases hpq with
    | list i h =>
      obtain ⟨_, _, _, _, rfl⟩ := eq_of_rendersList h
      exact .none
    | @kept k s ps qs h hps =>
      cases k
      case returnStatement =>
        rcases hps with _ | ⟨he, _ | ⟨_, _⟩⟩
        · exact .none
        · rw [Node.returnedMarkup?, Node.returnedMarkup?, he.isMarkup]
          split
          · exact .some he
          · exact .none
        · exact .none
      all_goals exact .none
  · simp only [Node.returnedMarkup?]
    exact .none

theorem root? (h : Unlisted n m) : Option.Rel Unlisted (Each.root? n) (Each.root? m) := by
  have hb := h.body
  rw [root?_eq, root?_eq]
  have hk : (m.body.kind = .functionBody) = (n.body.kind = .functionBody) := by
    have := hb.of_kinds (p := (· = .functionBody)) (fun _ _ => rfl) fun _ => rfl
    simpa using this
  simp only [hk, hb.isMarkup]
  split
  · exact returnedMarkup? hb.statements
  · split
    · exact .some hb
    · exact .none

/-- The pattern of the only parameter of some. -/
theorem onlyParameter? (h : List.Forall₂ Unlisted ps qs) :
    Option.Rel Unlisted (Node.onlyParameter? ps) (Node.onlyParameter? qs) := by
  rcases h with _ | @⟨n, m, _, _, hpq, _ | ⟨_, _⟩⟩
  · exact .none
  · cases hpq with
    | list i h =>
      obtain ⟨_, _, _, _, rfl⟩ := eq_of_rendersList h
      exact .none
    | @kept k s ps qs h hps =>
      cases k
      case param =>
        rcases hps with _ | ⟨_, _ | ⟨hp, _⟩⟩
        · exact .none
        · exact .none
        · exact .some hp
      all_goals exact .none
  · simp only [Node.onlyParameter?]
    exact .none

/-- A list is not taken for parameters. -/
theorem parameterOf? (h : Unlisted n m) :
    Option.Rel Unlisted (Node.parameterOf? n) (Node.parameterOf? m) := by
  cases h with
  | list i h =>
    obtain ⟨l, x, s, o, rest, hparts⟩ := parts_of_rendersList h
    rw [Node.parameterOf?, hparts, List.filter_cons_of_pos (by simp), Node.onlyParameter?]
    · exact .none
    · simp
  | @kept k s ps qs h hps =>
    refine onlyParameter? (filter (fun h => ?_) hps)
    have hk := h.of_kinds (p := (· = .thisParam)) (fun _ _ => rfl) fun _ => rfl
    simp only [ne_eq, decide_not, hk]

theorem onlyPattern? (h : Unlisted n m) : Option.Rel Unlisted n.onlyPattern? m.onlyPattern? := by
  rw [onlyPattern?_eq, onlyPattern?_eq]
  cases h with
  | list i h =>
    obtain ⟨_, _, _, _, rfl⟩ := eq_of_rendersList h
    exact .none
  | @kept k s ps qs h hps =>
    cases k
    case arrow =>
      rcases hps with _ | ⟨_, _ | ⟨hp, _ | ⟨_, _ | ⟨_, _ | _⟩⟩⟩⟩
      case cons.cons.cons.cons.nil => exact hp.parameterOf?
      all_goals exact .none
    case function =>
      rcases hps with _ | ⟨_, _ | ⟨_, _ | ⟨hp, _ | ⟨_, _ | ⟨_, _ | _⟩⟩⟩⟩⟩
      case cons.cons.cons.cons.cons.nil => exact hp.parameterOf?
      all_goals exact .none
    all_goals exact .none

theorem isSome {α β : Type} {r : α → β → Prop} {a : Option α} {b : Option β}
    (h : Option.Rel r a b) : b.isSome = a.isSome := by
  cases h <;> rfl

theorem mapCall? (h : List.Forall₂ Unlisted ps qs) :
    Option.Rel (fun x y => Unlisted x.1 y.1 ∧ Unlisted x.2 y.2) (Node.mk k s ps).mapCall?
      (Node.mk k s qs).mapCall? := by
  unfold Node.mapCall?
  cases k
  case call l b =>
    rcases h with _ | @⟨n, m, _, _, hmember, _ | ⟨_, _ | ⟨hcallback, _ | _⟩⟩⟩
    case cons.cons.cons.nil =>
      cases hmember with
      | list i h =>
        obtain ⟨_, _, _, _, rfl⟩ := eq_of_rendersList h
        exact .none
      | @kept k s ps qs h hps =>
        cases k
        case member l x =>
          obtain ⟨o, e⟩ := l
          cases e with
          | true => exact .none
          | false =>
            rcases hps with _ | ⟨hcollection, _ | _⟩
            case cons.nil =>
              simp only [hcallback.isFunction, isSome hcallback.onlyPattern?]
              split
              · exact .some ⟨hcollection, hcallback⟩
              · exact .none
            all_goals exact .none
        all_goals exact .none
    all_goals
      simp only
      exact .none
  all_goals exact .none

theorem find? (hp : ∀ {n m}, Unlisted n m → p m = p n)
    (h : List.Forall₂ Unlisted ps qs) : Option.Rel Unlisted (ps.find? p) (qs.find? p) := by
  induction h with
  | nil => exact .none
  | cons hpq _ ih =>
    rw [List.find?_cons, List.find?_cons, hp hpq]
    split
    · exact .some hpq
    · exact ih

theorem eraseP (hp : ∀ {n m}, Unlisted n m → p m = p n)
    (h : List.Forall₂ Unlisted ps qs) : List.Forall₂ Unlisted (ps.eraseP p) (qs.eraseP p) := by
  induction h with
  | nil => exact .nil
  | cons hpq hrest ih =>
    rw [List.eraseP_cons, List.eraseP_cons, hp hpq, Bool.cond_eq_ite, Bool.cond_eq_ite]
    split
    · exact hrest
    · exact .cons hpq ih

theorem of_parts (hk : k.isExpressionCall = false) (h : List.Forall₂ Unlisted ps qs) :
    Unlisted (Node.mk k s ps) (Node.mk k s qs) := by
  refine .kept ?_ h
  rw [rendersList, Node.kind, hk, Bool.false_and]

/-- The value of the key among some attributes. -/
theorem attributeValue? (h : List.Forall₂ Unlisted ps qs) :
    Option.Rel Unlisted ((ps.find? Each.isKey).bind (·.parts.head?))
      ((qs.find? Each.isKey).bind (·.parts.head?)) := by
  have hfind := find? isKey h
  generalize hp : ps.find? Each.isKey = p at hfind
  generalize qs.find? Each.isKey = q at hfind
  cases hfind with
  | none => exact .none
  | @some a b hab =>
    obtain ⟨k, s, parts⟩ := a
    have hkey : Each.isKey (Node.mk k s parts) = true := List.find?_some hp
    obtain rfl : k = .attribute none "key" := of_decide_eq_true hkey
    obtain ⟨parts', rfl, hparts⟩ := hab.of_kind rfl
    cases hparts with
    | nil => exact .none
    | cons h _ => exact .some h

/-- Markup without its key, and the value of the key. -/
theorem keyless (h : Unlisted n m) : Unlisted (Each.keyless n) (Each.keyless m) ∧
    Option.Rel Unlisted (Each.keyValue? n) (Each.keyValue? m) := by
  have hsame := h
  cases h with
  | list i h =>
    obtain ⟨_, _, _, _, rfl⟩ := eq_of_rendersList h
    exact ⟨hsame, .none⟩
  | @kept k s ps qs h hps =>
    cases k
    case element =>
      rcases hps with _ | @⟨o, o', _, _, hopening, hrest⟩
      · exact ⟨hsame, .none⟩
      · have hopening' := hopening
        cases hopening with
        | list i h =>
          obtain ⟨_, _, _, _, rfl⟩ := eq_of_rendersList h
          exact ⟨hsame, .none⟩
        | @kept k t ps qs h hps =>
          cases k
          case opening =>
            rcases hps with _ | ⟨hname, _ | ⟨htypes, hattributes⟩⟩
            · exact ⟨hsame, .none⟩
            · exact ⟨hsame, .none⟩
            · refine ⟨of_parts rfl (.cons (of_parts rfl ?_) hrest), ?_⟩
              · exact .cons hname (.cons htypes (eraseP isKey hattributes))
              · exact attributeValue? hattributes
          all_goals exact ⟨hsame, .none⟩
    all_goals exact ⟨hsame, .none⟩

theorem keyText? (h : Unlisted n m) : (Each.keyText? m).isSome = (Each.keyText? n).isSome := by
  cases h with
  | list i h =>
    obtain ⟨_, _, _, _, rfl⟩ := eq_of_rendersList h
    rfl
  | @kept k s ps qs h hps =>
    cases k
    case container =>
      rcases hps with _ | ⟨he, _ | _⟩
      case cons.nil =>
        have hk := he.of_kinds (p := (· = .emptyHole)) (fun _ _ => rfl) fun _ => rfl
        simp only [decide_eq_decide] at hk
        simp only [Each.keyText?, hk]
        split <;> rfl
      all_goals rfl
    all_goals rfl

/-- A list is written from trees without lists. -/
theorem written? (h : List.Forall₂ Unlisted ps qs) :
    Option.Rel (List.Forall₂ Unlisted) (Each.written? (Node.mk k s ps))
      (Each.written? (Node.mk k s qs)) := by
  have hmap := mapCall? (k := k) (s := s) h
  unfold Each.written?
  generalize (Node.mk k s ps).mapCall? = x at hmap
  generalize (Node.mk k s qs).mapCall? = y at hmap
  cases hmap with
  | none => exact .none
  | @some x y hxy =>
    obtain ⟨hcollection, hcallback⟩ := hxy
    have hitem := hcallback.onlyPattern?
    have hroot := hcallback.root?
    simp only [Option.bind_eq_bind, Option.bind_some]
    generalize x.2.onlyPattern? = i at hitem
    generalize y.2.onlyPattern? = j at hitem
    cases hitem with
    | none => exact .none
    | some hitem =>
      generalize Each.root? x.2 = r at hroot
      generalize Each.root? y.2 = t at hroot
      cases hroot with
      | none => exact .none
      | @some r t hrt =>
        obtain ⟨hkeyless, hkey⟩ := hrt.keyless
        refine .some (List.rel_append (.cons hcollection (.cons hitem (.cons hkeyless .nil))) ?_)
        generalize Each.keyValue? r = v at hkey
        generalize Each.keyValue? t = w at hkey
        cases hkey with
        | none => exact .nil
        | some hvalue =>
          simp only [Option.filter_some, hvalue.keyText?]
          split
          · exact .cons hvalue .nil
          · exact .nil

end Unlisted

end Node

/-! ### Choices -/

/-- The trees that a block is written from. -/
def Shape.trees : Shape → List Node
  | given _ => []
  | each _ collection item key root =>
    [collection, item, root] ++ (key.filter fun v => (Each.keyText? v).isSome).toList
  | choice _ e => [e]

/-- Whether a block is written from a tree with a call of one of some hooks. -/
def Shape.calls (p : Hook → Bool) (s : Shape) : Bool := s.trees.any (Node.calls p)

namespace Node

/-- Whether a hole chooses between markup and has a call of one of some hooks. -/
def choosesHook (p : Hook → Bool) (names : List Text) : Node → Bool
  | mk .container _ [e] => Choice.isLowerable names e && e.calls p
  | _ => false

mutual

/-- Whether a choice that a tree shows, outside attributes, has a call of one of some
    hooks. -/
def freezesInChoice (p : Hook → Bool) (names : List Text) (inAttribute : Bool) : Node → Bool
  | mk k s ps => !inAttribute && choosesHook p names (mk k s ps) ||
      anyFrozenChoice p names (inAttribute || k.isAttribute) ps

/-- Whether a choice that one of some trees shows has a call of one of some hooks. -/
def anyFrozenChoice (p : Hook → Bool) (names : List Text) (inAttribute : Bool) :
    List Node → Bool
  | [] => false
  | n :: ns => n.freezesInChoice p names inAttribute || anyFrozenChoice p names inAttribute ns

end

theorem shapeChoices_of_kind {names : List Text} {a : Bool} {k : Kind} {s : Span}
    {ps : List Node} {ss : List Shape} (hk : k ≠ .container) :
    (mk k s ps).shapeChoices names a ss =
      (mk k s (shapeChoicesList names (a || k.isAttribute) ps ss).1,
        (shapeChoicesList names (a || k.isAttribute) ps ss).2) := by
  rw [shapeChoices]
  dsimp only
  split
  · exact absurd rfl hk
  · rfl

theorem shows_shapeChoices (names : List Text) (a : Bool) (n : Node) (ss : List Shape) :
    Choice.shows names (n.shapeChoices names a ss).1 = Choice.shows names n := by
  have hk := kind_shapeChoices names a n ss
  rw [Choice.shows, Choice.shows, identifier?_congr hk, isMarkup, isMarkup, hk]

theorem isLowerable_shapeChoices (names : List Text) (a : Bool) (n : Node) (ss : List Shape) :
    Choice.isLowerable names (n.shapeChoices names a ss).1 = Choice.isLowerable names n := by
  induction n generalizing a ss with
  | mk k s ps ih =>
    cases k
    case container =>
      have hk := kind_shapeChoices names a (mk .container s ps) ss
      generalize ((mk .container s ps).shapeChoices names a ss).1 = m at hk
      obtain ⟨k', s', ps'⟩ := m
      obtain rfl : k' = .container := hk
      rfl
    case conditional =>
      rw [shapeChoices_of_kind (k := .conditional) nofun]
      rcases ps with _ | ⟨t, _ | ⟨x, _ | ⟨y, _ | ⟨z, ps⟩⟩⟩⟩
      case cons.cons.cons.nil =>
        simp only [shapeChoicesList, Choice.isLowerable, shows_shapeChoices]
        rw [ih x (by simp), ih y (by simp)]
      all_goals rfl
    case binary op =>
      rw [shapeChoices_of_kind (k := .binary op) nofun]
      cases op
      case and =>
        rcases ps with _ | ⟨t, _ | ⟨x, _ | ⟨y, ps⟩⟩⟩
        case cons.cons.nil =>
          simp only [shapeChoicesList, Choice.isLowerable, shows_shapeChoices]
          rw [ih x (by simp)]
        all_goals rfl
      all_goals rfl
    all_goals rfl

theorem calleeHook?_shapeChoices (names : List Text) (a : Bool) (n : Node) (ss : List Shape) :
    (n.shapeChoices names a ss).1.calleeHook? = n.calleeHook? := by
  obtain ⟨k, s, ps⟩ := n
  unfold calleeHook?
  cases k
  case container =>
    have hk := kind_shapeChoices names a (mk .container s ps) ss
    generalize ((mk .container s ps).shapeChoices names a ss).1 = m at hk
    obtain ⟨k', s', ps'⟩ := m
    obtain rfl : k' = .container := hk
    rfl
  case member l x =>
    rw [shapeChoices_of_kind (k := .member l x) nofun]
    obtain ⟨o, e⟩ := l
    rcases ps with _ | ⟨q, _ | ⟨r, ps⟩⟩
    case cons.nil =>
      cases e with
      | true => rfl
      | false =>
        simp only [shapeChoicesList, calleeName?_member,
          identifier?_congr (kind_shapeChoices _ _ q ss)]
    all_goals simp [shapeChoicesList, calleeName?]
  all_goals rfl

theorem expressionHook?_shapeChoices {names : List Text} {a : Bool} {k : Kind} {s : Span}
    {ps : List Node} {ss : List Shape} :
    (mk k s (shapeChoicesList names a ps ss).1).expressionHook? = (mk k s ps).expressionHook? := by
  rw [expressionHook?_mk, expressionHook?_mk]
  cases ps with
  | nil => rfl
  | cons p ps =>
    rw [shapeChoicesList, List.head?_cons, List.head?_cons, Option.bind_some, Option.bind_some,
      calleeHook?_shapeChoices]

section

variable (p : Hook → Bool) (names : List Text)

theorem calls_shapeChoicesList {ns : List Node} (ih : ∀ n ∈ ns, ∀ a ss,
      ((n.shapeChoices names a ss).1.calls p || n.freezesInChoice p names a) = n.calls p ∧
        (n.shapeChoices names a ss).2.any (Shape.calls p) =
          (ss.any (Shape.calls p) || n.freezesInChoice p names a)) (a : Bool) (ss : List Shape) :
    ((shapeChoicesList names a ns ss).1.any (calls p) || anyFrozenChoice p names a ns) =
        ns.any (calls p) ∧
      (shapeChoicesList names a ns ss).2.any (Shape.calls p) =
        (ss.any (Shape.calls p) || anyFrozenChoice p names a ns) := by
  induction ns generalizing ss with
  | nil => simp [shapeChoicesList, anyFrozenChoice]
  | cons n ns ihns =>
    obtain ⟨hn, hn'⟩ := ih n List.mem_cons_self a ss
    obtain ⟨hns, hns'⟩ := ihns (fun m hm => ih m (List.mem_cons_of_mem _ hm))
      (n.shapeChoices names a ss).2
    simp only [shapeChoicesList, anyFrozenChoice, List.any_cons]
    rw [hns', hn', ← hn, ← hns]
    grind

/-- A call of a hook stays in the tree or is frozen in a choice. -/
theorem calls_shapeChoices (n : Node) (a : Bool) (ss : List Shape) :
    ((n.shapeChoices names a ss).1.calls p || n.freezesInChoice p names a) = n.calls p ∧
      (n.shapeChoices names a ss).2.any (Shape.calls p) =
        (ss.any (Shape.calls p) || n.freezesInChoice p names a) := by
  induction n generalizing a ss with
  | mk k s ps ih =>
    have hparts := calls_shapeChoicesList p names ih
    have hkept (hc : (!a && choosesHook p names (mk k s ps)) = false) :
        ((mk k s (shapeChoicesList names (a || k.isAttribute) ps ss).1).calls p ||
          (mk k s ps).freezesInChoice p names a) = (mk k s ps).calls p ∧
        (shapeChoicesList names (a || k.isAttribute) ps ss).2.any (Shape.calls p) =
          (ss.any (Shape.calls p) || (mk k s ps).freezesInChoice p names a) := by
      obtain ⟨hcalls, hshapes⟩ := hparts (a || k.isAttribute) ss
      rw [calls_mk, calls_mk, freezesInChoice, hc, expressionHook?_shapeChoices, ← hcalls, hshapes,
        Bool.or_assoc]
      exact ⟨rfl, rfl⟩
    by_cases hk : k = .container
    · subst hk
      rcases ps with _ | ⟨e, _ | ⟨e', ps⟩⟩
      case cons.nil =>
        obtain ⟨hcalls, hshapes⟩ := ih e List.mem_cons_self a ss
        have hlowerable := isLowerable_shapeChoices names a e ss
        rw [shapeChoices]
        simp only [shapeChoicesList, Kind.isAttribute, Bool.or_false, hlowerable]
        cases hlowered : !a && Choice.isLowerable names e with
        | false =>
          have hc : (!a && choosesHook p names (mk .container s [e])) = false := by
            rw [choosesHook, ← Bool.and_assoc, hlowered, Bool.false_and]
          have hkept := hkept hc
          simp only [shapeChoicesList, Kind.isAttribute, Bool.or_false] at hkept
          exact hkept
        | true =>
          obtain ⟨ha, he⟩ := Bool.and_eq_true_iff.1 hlowered
          have hhole : (mk .container s [e]).calls p = e.calls p := by
            rw [calls_mk, List.any_cons, List.any_nil, Bool.or_false]
            rfl
          have hplaceholder (i : Nat) :
              (mk .container s [Block.placeholderNode i]).calls p = false := rfl
          simp only [if_true, List.any_append, List.any_cons, List.any_nil, Bool.or_false,
            freezesInChoice, choosesHook, anyFrozenChoice, Kind.isAttribute, ha, he, Bool.true_and,
            hshapes, hhole, hplaceholder, Shape.calls, Shape.trees]
          rw [← hcalls]
          grind
      all_goals exact hkept (Bool.and_false _)
    · rw [shapeChoices_of_kind hk]
      refine hkept ?_
      have hnone : choosesHook p names (mk k s ps) = false := by
        cases k
        case container => exact absurd rfl hk
        all_goals rfl
      rw [hnone, Bool.and_false]

end

/-! ### What becomes of lists -/

theorem isSome_written? (call : Node) (names : List Text) (ss : List Shape) :
    (Each.shape? names call ss).isSome = (Each.written? call).isSome := by
  unfold Each.shape? Each.written?
  cases call.mapCall? with
  | none => rfl
  | some x =>
    cases hi : x.2.onlyPattern? <;> cases hr : Each.root? x.2 <;> simp [hi, hr]

/-- The block of a list is written from what the list is written from, but for what is
    frozen in the choices within it. -/
theorem calls_shape? (p : Hook → Bool) {names : List Text} {call : Node} {ss ss' : List Shape}
    {b : Shape} (h : Each.shape? names call ss = some (b, ss')) :
    (ss' ++ [b]).any (Shape.calls p) =
      (ss.any (Shape.calls p) || ((Each.written? call).getD []).any (calls p)) := by
  unfold Each.shape? at h
  unfold Each.written?
  cases hm : call.mapCall? with
  | none =>
    rw [hm] at h
    cases h
  | some x =>
    cases hi : x.2.onlyPattern? with
    | none => simp [hm, hi] at h
    | some item =>
      cases hr : Each.root? x.2 with
      | none => simp [hm, hi, hr] at h
      | some root =>
        obtain ⟨hcalls, hshapes⟩ := calls_shapeChoices p names (Each.keyless root) false ss
        simp only [hm, hi, hr, Option.bind_eq_bind, Option.bind_some, Option.pure_def,
          Option.some.injEq, Prod.mk.injEq] at h
        obtain ⟨rfl, rfl⟩ := h
        simp only [hi, hr, Option.bind_eq_bind, Option.bind_some, Option.pure_def, Option.getD_some,
          List.any_append, List.any_cons, List.any_nil, Shape.calls, Shape.trees, hshapes, ← hcalls]
        grind

theorem Unlisted.any_calls {ns ms : List Node} (h : List.Forall₂ Unlisted ns ms)
    (p : Hook → Bool) : ms.any (Node.calls p) = ns.any (callsOpenly p) := by
  induction h with
  | nil => rfl
  | cons hnm _ ih => rw [List.any_cons, List.any_cons, hnm.calls, ih]

theorem freezesInList_mk (p : Hook → Bool) (k : Kind) (s : Span) (ps : List Node) :
    (mk k s ps).freezesInList p = ((mk k s ps).rendersList &&
      ((Each.written? (mk k s ps)).getD []).any (callsOpenly p) ||
        ps.any (freezesInList p)) := by
  rw [freezesInList, any_mk, anyList_eq]
  rfl

section

variable (p : Hook → Bool) (names : List Text)

theorem shapeListsList_unlisted {ns : List Node}
    (ih : ∀ n ∈ ns, ∀ ss, Unlisted n (n.shapeLists names ss).1 ∧
      (n.shapeLists names ss).2.any (Shape.calls p) =
        (ss.any (Shape.calls p) || n.freezesInList p)) (ss : List Shape) :
    List.Forall₂ Unlisted ns (shapeListsList names ns ss).1 ∧
      (shapeListsList names ns ss).2.any (Shape.calls p) =
        (ss.any (Shape.calls p) || ns.any (freezesInList p)) := by
  induction ns generalizing ss with
  | nil => exact ⟨.nil, (Bool.or_false _).symm⟩
  | cons n ns ihns =>
    obtain ⟨hn, hshapes⟩ := ih n List.mem_cons_self ss
    obtain ⟨hns, hshapes'⟩ := ihns (fun m hm => ih m (List.mem_cons_of_mem _ hm))
      (n.shapeLists names ss).2
    refine ⟨.cons hn hns, ?_⟩
    rw [shapeListsList, List.any_cons, ← Bool.or_assoc, ← hshapes]
    exact hshapes'

/-- The lists of a tree are names of blocks, and hooks are frozen in their blocks as the
    tree says. -/
theorem shapeLists_unlisted (n : Node) (ss : List Shape) :
    Unlisted n (n.shapeLists names ss).1 ∧ (n.shapeLists names ss).2.any (Shape.calls p) =
      (ss.any (Shape.calls p) || n.freezesInList p) := by
  induction n generalizing ss with
  | mk k s ps ih =>
    obtain ⟨hps, hshapes⟩ := shapeListsList_unlisted p names ih ss
    rw [shapeLists, freezesInList_mk]
    generalize shapeListsList names ps ss = r at hps hshapes
    obtain ⟨qs, ss'⟩ := r
    dsimp only at hps hshapes ⊢
    have hwritten := Unlisted.written? (k := k) (s := s) hps
    have hrenders : (mk k s ps).rendersList =
        (if k.isExpressionCall then Each.shape? names (mk k s qs) ss' else none).isSome := by
      rw [rendersList, kind, ← Unlisted.isSome hwritten, ← isSome_written? _ names ss']
      cases k.isExpressionCall <;> rfl
    cases hshape : if k.isExpressionCall then Each.shape? names (mk k s qs) ss' else none with
    | none =>
      rw [hshape] at hrenders
      refine ⟨.kept hrenders hps, ?_⟩
      rw [hrenders, hshapes]
      rfl
    | some r =>
      obtain ⟨b, ss''⟩ := r
      rw [hshape] at hrenders
      refine ⟨.list _ hrenders, ?_⟩
      have hb : Each.shape? names (mk k s qs) ss' = some (b, ss'') := by
        split at hshape
        · exact hshape
        · cases hshape
      have hfrozen : ((Each.written? (mk k s qs)).getD []).any (calls p) =
          ((Each.written? (mk k s ps)).getD []).any (callsOpenly p) := by
        generalize Each.written? (mk k s ps) = x at hwritten
        generalize Each.written? (mk k s qs) = y at hwritten
        cases hwritten with
        | none => rfl
        | some h => exact Unlisted.any_calls h p
      dsimp only
      rw [calls_shape? p hb, hfrozen, hrenders, hshapes]
      grind

end

theorem anyFrozenChoice_eq (p : Hook → Bool) (names : List Text) (a : Bool) (ns : List Node) :
    anyFrozenChoice p names a ns = ns.any (freezesInChoice p names a) := by
  induction ns with
  | nil => rfl
  | cons n ns ih => rw [anyFrozenChoice, ih, List.any_cons]

end Node

namespace Component

/-- A component whose lists are blocks, and whose choices are still to become blocks. -/
def listed (c : Component) : Component :=
  c.renameAttributes.findMarkupNames.lowerLists.findMarkupNames

/-- Whether a list or a choice of a component or its module has a call of one of some
    hooks that its block is written with. -/
def freezesHook (p : Hook → Bool) (c : Component) : Bool :=
  (c.renameAttributes.module ++ c.renameAttributes.body).any (Node.freezesInList p) ||
    (c.listed.module ++ c.listed.body).any (Node.freezesInChoice p c.listed.markupNames false)

theorem shapeLists_calls (p : Hook → Bool) (c : Component) (ss : List Shape) :
    (c.shapeLists ss).2.any (Shape.calls p) =
      (ss.any (Shape.calls p) || (c.module ++ c.body).any (Node.freezesInList p)) := by
  have hlists (ns : List Node) (ss : List Shape) :
      (Node.shapeListsList c.markupNames ns ss).2.any (Shape.calls p) =
        (ss.any (Shape.calls p) || ns.any (Node.freezesInList p)) :=
    (Node.shapeListsList_unlisted p c.markupNames
      (fun n _ => Node.shapeLists_unlisted p c.markupNames n) ss).2
  unfold shapeLists
  dsimp only
  rw [hlists, hlists, List.any_append, Bool.or_assoc]

theorem shapeChoices_calls (p : Hook → Bool) (c : Component) (ss : List Shape) :
    (c.shapeChoices ss).2.any (Shape.calls p) = (ss.any (Shape.calls p) ||
      (c.module ++ c.body).any (Node.freezesInChoice p c.markupNames false)) := by
  have hchoices (ns : List Node) (ss : List Shape) :
      (Node.shapeChoicesList c.markupNames false ns ss).2.any (Shape.calls p) =
        (ss.any (Shape.calls p) || Node.anyFrozenChoice p c.markupNames false ns) :=
    (Node.calls_shapeChoicesList p c.markupNames
      (fun n _ => Node.calls_shapeChoices p c.markupNames n) false ss).2
  unfold shapeChoices
  dsimp only
  rw [hchoices, hchoices, Node.anyFrozenChoice_eq, Node.anyFrozenChoice_eq, List.any_append,
    Bool.or_assoc]

/-- A block is written with a call of a hook exactly if a list or a choice has one. -/
theorem shapes_calls (p : Hook → Bool) (c : Component) :
    c.shapes.any (Shape.calls p) = c.freezesHook p := by
  have hlisted : c.listed = (c.renameAttributes.findMarkupNames.shapeLists
      (c.blocks.map .given)).1.findMarkupNames := by
    rw [listed, lowerLists_written (c := c.renameAttributes.findMarkupNames) (given_blocks c)]
  have hgiven : (c.blocks.map Shape.given).any (Shape.calls p) = false := by
    simp [Shape.calls, Shape.trees]
  unfold shapes freezesHook
  dsimp only
  rw [shapeChoices_calls, shapeLists_calls, hgiven, Bool.false_or, ← hlisted]
  rfl

end Component

end Unhook
