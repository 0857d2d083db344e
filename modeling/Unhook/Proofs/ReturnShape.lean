import Unhook.Proofs.Ending

/-!
# When a component returns as it should

A function is accepted as a component by the way that it returns: it is an arrow
that is just an expression, or its statements end in a return, and what is
returned is markup or a name. There is no other return, except in functions and
classes within it, however deep it stands in blocks, branches, loops, switches
and labelled statements.

The check collects the stretches of all returns and compares them with that of
the last one. Here the returns are found by the paths that lead to them
(`Node.openAt?`); the two agree since the returns of a function that has been
read begin one after the other.

* `Node.EndInReturn`: statements that end in their only return;
* `Node.ReturnsWell`: functions that return as a component should;
* `Component.located_iff_returnsWell`: they are exactly the ones that are accepted.
-/

namespace Unhook

namespace Node

/-- The node that a path leads to, if it leads through no function and no class. -/
def openAt? (n : Node) : (path : List Nat) → Option Node
  | [] => some n
  | i :: p => if n.kind.encloses then none else n.parts[i]?.bind (·.openAt? p)

theorem openAt?_cons {n m : Node} {i : Nat} {p : List Nat} : n.openAt? (i :: p) = some m ↔
    n.kind.encloses = false ∧ ∃ a, n.parts[i]? = some a ∧ a.openAt? p = some m := by
  rw [openAt?]
  cases n.kind.encloses <;> simp [Option.bind_eq_some_iff]

theorem mem_returns_mk {k : Kind} {s t : Span} {ps : List Node} : t ∈ (mk k s ps).returns ↔
    k.encloses = false ∧ (k = .returnStatement ∧ s = t ∨ ∃ p ∈ ps, t ∈ p.returns) := by
  rw [returns, returnsList_eq]
  by_cases hk : k = .returnStatement
  · subst hk
    simp [Kind.encloses, eq_comm]
  · cases k.encloses <;> simp [hk]

/-- The returns of a tree are those that paths lead to outside functions and
    classes. -/
theorem mem_returns_iff {n : Node} {t : Span} :
    t ∈ n.returns ↔ ∃ p m, n.openAt? p = some m ∧ m.kind = .returnStatement ∧ m.span = t := by
  induction n with
  | mk k s ps ih =>
    rw [mem_returns_mk]
    constructor
    · rintro ⟨hk, ⟨rfl, rfl⟩ | ⟨a, ha, ht⟩⟩
      · exact ⟨[], _, rfl, rfl, rfl⟩
      · obtain ⟨i, hi⟩ := List.getElem?_of_mem ha
        obtain ⟨p, m, hm, hkind, hspan⟩ := (ih a ha).1 ht
        exact ⟨i :: p, m, openAt?_cons.2 ⟨hk, a, hi, hm⟩, hkind, hspan⟩
    · rintro ⟨p, m, hm, hkind, hspan⟩
      cases p with
      | nil =>
        cases hm
        obtain rfl : k = .returnStatement := hkind
        exact ⟨rfl, .inl ⟨rfl, hspan⟩⟩
      | cons i p =>
        obtain ⟨hk, a, ha, hm⟩ := openAt?_cons.1 hm
        have ha := List.mem_of_getElem? ha
        exact ⟨hk, .inr ⟨a, ha, (ih a ha).2 ⟨p, m, hm, hkind, hspan⟩⟩⟩

/-- An expression that is markup or a name. -/
def Showable (e : Node) : Prop :=
  e.kind = .element ∨ e.kind = .fragment ∨ ∃ x, e.kind = .identifier x

/-- Statements that end in a return of markup or of a name, and have no other
    return outside functions and classes. -/
def EndInReturn (ss : List Node) : Prop :=
  ∃ init s e, ss = init ++ [mk .returnStatement s [e]] ∧ e.Showable ∧
    ∀ i t p m, ss[i]? = some t → t.openAt? p = some m → m.kind = .returnStatement →
      i = init.length ∧ p = []

/-- A function that returns as a component should: it is concise, and is markup or
    a name, or its statements end in their only return. -/
def ReturnsWell (f : Node) : Prop :=
  f.body.kind ≠ .functionBody ∧ f.body.Showable ∨
    f.body.kind = .functionBody ∧ EndInReturn f.body.statements

/-- A return that gives back something without returns is the only one in it. -/
theorem eq_nil_of_openAt? {s : Span} {e m : Node} {p : List Nat} (he : e.returns = [])
    (hm : (mk .returnStatement s [e]).openAt? p = some m) (hkind : m.kind = .returnStatement) :
    p = [] := by
  cases p with
  | nil => rfl
  | cons i p =>
    obtain ⟨-, a, ha, hopen⟩ := openAt?_cons.1 hm
    obtain rfl := List.mem_singleton.1 (List.mem_of_getElem? ha)
    have hmem := mem_returns_iff.2 ⟨p, m, hopen, hkind, rfl⟩
    rw [he] at hmem
    cases hmem

/-- Statements that end in their only return do so by every path. -/
theorem Ends.endInReturn {ss : List Node} (h : Ends ss) : EndInReturn ss := by
  obtain ⟨init, s, e, rfl, hinit, he, hreturnable⟩ := h.eq_append
  refine ⟨init, s, e, rfl, isReturnable_iff.1 hreturnable, fun i t p m ht hm hkind => ?_⟩
  by_cases hi : i < init.length
  · rw [List.getElem?_append_left hi] at ht
    have hquiet := (Within.list_iff.1 hinit t (List.mem_of_getElem? ht)).returns_eq_nil
    have hmem := mem_returns_iff.2 ⟨p, m, hm, hkind, rfl⟩
    rw [hquiet] at hmem
    cases hmem
  · have hlt := (List.getElem?_eq_some_iff.1 ht).1
    rw [List.length_append, List.length_singleton] at hlt
    obtain rfl : i = init.length := by omega
    rw [List.getElem?_concat_length] at ht
    cases ht
    exact ⟨rfl, eq_nil_of_openAt? he.returns_eq_nil hm hkind⟩

end Node

namespace Component

variable {f : Node}

open Node

variable {c : Component}

/-- Whatever is wrong with the way that a component returns, it is the same rule
    that it breaks. -/
theorem rule_returnProblem? {p : Problem} (h : c.returnProblem? = some p) :
    p.cause.rule = .returnShape := by
  unfold returnProblem? at h
  split at h
  · cases h
    rfl
  · split at h
    · cases h
      rfl
    · split at h
      · obtain ⟨s, -, rfl⟩ := Option.map_eq_some_iff.1 h
        rfl
      · cases h
        rfl
  · cases h
    rfl

/-- A component has no problem with the way that it returns if its statements end in
    their only return, and only then: returns are told apart by where they begin. -/
theorem returnProblem?_eq_none_iff (hsound : ∀ s ∈ c.body, s.Sound) (hapart : Apart c.body) :
    c.returnProblem? = none ↔ EndInReturn c.body := by
  refine ⟨fun h => (ends_of_returnProblem? hsound hapart h).endInReturn, ?_⟩
  rintro ⟨init, s, e, hbody, he, honly⟩
  have hvalue : returnValue? (.mk .returnStatement s [e]) = some e := by
    show e.present? = some e
    obtain ⟨k, sp, ps⟩ := e
    rcases he with hk | hk | ⟨x, hk⟩ <;> obtain rfl := hk <;> rfl
  have hstray : strayReturnList? s c.body = none := by
    refine strayReturnList?_eq_none.2 fun n hn t ht => ?_
    obtain ⟨i, hi⟩ := List.getElem?_of_mem hn
    obtain ⟨p, m, hm, hkind, rfl⟩ := mem_returns_iff.1 ht
    obtain ⟨rfl, rfl⟩ := honly i n p m hi hm hkind
    rw [hbody, List.getElem?_concat_length] at hi
    cases hi
    cases hm
    rfl
  have hlast : c.body.getLast? = some (.mk .returnStatement s [e]) := by
    rw [hbody, List.getLast?_concat]
  rw [returnProblem?, hlast]
  simp only [hvalue, isReturnable_iff.2 he, hstray, if_true, Option.map_none]

theorem bodyOf_of_functionBody (h : f.body.kind = .functionBody) :
    bodyOf f = f.body.statements := by
  rw [bodyOf, h]

/-- A concise body is returned as a whole. -/
theorem bodyOf_of_ne_functionBody (h : f.body.kind ≠ .functionBody) :
    bodyOf f = [.mk .returnStatement f.body.span [f.body]] := by
  unfold bodyOf
  split
  · next hkind => exact absurd hkind h
  · rfl

/-- The statements of a function end in their only return if the function returns as
    a component should. -/
theorem endInReturn_bodyOf (hf : f.Sound) : EndInReturn (bodyOf f) ↔ f.ReturnsWell := by
  unfold ReturnsWell
  by_cases hkind : f.body.kind = .functionBody
  · simp [hkind, bodyOf_of_functionBody hkind]
  · have hquiet : f.body.returns = [] := hf.body.2.resolve_left hkind
    rw [bodyOf_of_ne_functionBody hkind]
    simp only [hkind, ne_eq, not_false_eq_true, true_and, false_and, or_false]
    constructor
    · rintro ⟨init, s, e, heq, he, -⟩
      have hlast := congrArg List.getLast? heq
      rw [List.getLast?_concat, List.getLast?_singleton] at hlast
      cases hlast
      exact he
    · intro he
      refine ⟨[], f.body.span, f.body, rfl, he, fun i t p m ht hm hreturn => ?_⟩
      cases i with
      | zero =>
        cases ht
        exact ⟨rfl, eq_nil_of_openAt? hquiet hm hreturn⟩
      | succ i => cases ht

/-- When the default export of a source is a function with a body, it is accepted as a
    component if and only if it returns as a component should: it is a concise arrow
    that is markup or a name, or its last statement returns markup or a name and there
    is no other return in it outside functions and classes. Otherwise the problem is
    the way that it returns. -/
theorem located_iff_returnsWell {options : Options} {source : Text} {module : List Node}
    {e : Export} (hmodule : parse options source = .ok module)
    (he : Export.resolve module (Export.fuel module) = .found e)
    (hbody : e.function.body.isAbsent = false) (length : Nat) :
    ((∃ c, ofModule length module = .ok c) ↔ e.function.ReturnsWell) ∧
      (¬e.function.ReturnsWell → ∃ p, ofModule length module = .error p ∧
        p.cause.rule.code = "J2S-EXPORT-002") := by
  have hsound : e.function.Sound := Export.sound_resolve
    (fun s hs => (Grammar.within_parseModule? (parseModule?_of_parse hmodule) hs).sound) he
  obtain ⟨hparts, hapart⟩ := apart_bodyOf hsound
  have hproblem : (ofExport module e).returnProblem? = none ↔ e.function.ReturnsWell :=
    (returnProblem?_eq_none_iff hparts hapart).trans (endInReturn_bodyOf hsound)
  have hlocated : ofModule length module =
      (ofExport module e).returnProblem?.elim (.ok (ofExport module e)) .error := by
    unfold ofModule
    simp only [he, hbody]
    cases (ofExport module e).returnProblem? <;> rfl
  rw [hlocated, ← hproblem]
  cases hp : (ofExport module e).returnProblem? with
  | none => simp
  | some p =>
    refine ⟨by simp, fun _ => ⟨p, rfl, ?_⟩⟩
    rw [rule_returnProblem? hp]
    rfl

/-- A component whose functions and classes return, and which ends in a return. -/
def nestedReturnsSource : Text :=
  "export default () => \x7b
    const one = () => \x7b return 1; \x7d;
    class Two \x7b two() \x7b return 2; \x7d \x7d
    return <p>\x7bone()\x7d</p>;
  \x7d;"

theorem nestedReturns_returnsWell : ∃ module e, parse {} nestedReturnsSource = .ok module ∧
    Export.resolve module (Export.fuel module) = .found e ∧ e.function.body.isAbsent = false ∧
    (∃ c, ofModule 0 module = .ok c) ∧ e.function.ReturnsWell := by
  have hsource : ((parse {} nestedReturnsSource).toOption.map fun module =>
      (ofModule 0 module).toOption.isSome) = some true := by
    rw [(by apply String.toList_ofList : nestedReturnsSource = _)]
    decide +kernel
  obtain ⟨module, hmodule, hlocated⟩ := of_toOption_map hsource
  obtain ⟨c, hc⟩ := of_isSome_toOption hlocated
  obtain ⟨e, he, hbody, -⟩ := exists_export_of_ofModule hc
  exact ⟨module, e, hmodule, he, hbody, ⟨c, hc⟩,
    (located_iff_returnsWell hmodule he hbody 0).1.1 ⟨c, hc⟩⟩

end Component

end Unhook
