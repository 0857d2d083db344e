import Mathlib.Logic.Relation
import Unhook.Proofs.Unhooked

/-!
# Hooks that are uncovered

What replaces a memoizing hook is visited in turn, and may be a hook again. Of a node
that is no hook the parts are visited. Every node that is visited has fewer nodes than
the one before it, so this comes to an end (`Node.visits_wf`), with an error if and only
if a hook is met that is refused.

A node is visited before its parts. So a call of which the function is a memoizing hook
is no call of a hook when it is visited; it is one afterwards, if the hook has given
another one, and then it is left. These calls are the only ones that are left, and they
are the only ones that would be replaced, or refused, if all was done again.

* `Node.Visits`: which nodes are visited after a node;
* `Node.calls_iff_exposes`: which calls of hooks are left;
* `Node.unmemo_eq_self_iff`: when nothing is left to be done;
* `Component.memo_hooks_left_iff`: both, for a component.
-/

namespace Unhook

namespace Node

/-! ### Visiting nodes -/

/-- Which nodes are visited after a node: what it is replaced by, or else its parts. -/
inductive Visits (n : Node) : Node → Prop
  | replaced {e : Node} (h : n.replacement = .ok (some e)) : Visits n e
  | part {p : Node} (h : n.replacement = .ok none) (hp : p ∈ n.parts) : Visits n p

/-! ### Sizes -/

mutual

/-- The number of nodes of a tree. -/
def size : Node → Nat
  | mk _ _ ps => sizeList ps + 1

/-- The number of nodes of some trees. -/
def sizeList : List Node → Nat
  | [] => 0
  | n :: ns => size n + sizeList ns

end

theorem size_eq (n : Node) : n.size = sizeList n.parts + 1 := by
  obtain ⟨k, s, ps⟩ := n
  rw [size, parts_mk]

theorem size_le_sizeList {p : Node} {ns : List Node} (h : p ∈ ns) : p.size ≤ sizeList ns := by
  induction ns with
  | nil => exact (List.not_mem_nil h).elim
  | cons n ns ih =>
    rw [sizeList]
    rcases List.mem_cons.1 h with rfl | h
    · exact Nat.le_add_right _ _
    · exact Nat.le_add_left_of_le (ih h)

theorem size_reference (x : Text) (s : Span) : (reference x s).size = 1 := by
  rw [reference, size, sizeList]

theorem size_lt_of_mem {n p : Node} (h : p ∈ n.parts) : p.size < n.size := by
  rw [size_eq n]
  exact Nat.lt_succ_of_le (size_le_sizeList h)

/-- What is within a node has fewer nodes than it. -/
theorem size_at?_lt {n m : Node} {i : Nat} {path : List Nat} (h : n.at? (i :: path) = some m) :
    m.size < n.size := by
  obtain ⟨p, hp, hm⟩ := Option.bind_eq_some_iff.1 h
  have hlt := size_lt_of_mem (List.mem_of_getElem? hp)
  induction path generalizing n p i with
  | nil => exact Option.some.inj hm ▸ hlt
  | cons j path ih =>
    obtain ⟨q, hq, hm'⟩ := Option.bind_eq_some_iff.1 hm
    exact Nat.lt_trans (ih hm q hq hm' (size_lt_of_mem (List.mem_of_getElem? hq))) hlt

theorem parts_ne_nil_of_isMemo {n : Node} (hn : n.isMemo = true) : n.parts ≠ [] := by
  obtain ⟨k, s, ps⟩ := n
  rintro rfl
  rw [isMemo, expressionHook?_mk] at hn
  split at hn <;> cases hn

/-- What replaces a node has fewer nodes than it. -/
theorem size_replacement_lt {n e : Node} (h : n.replacement = .ok (some e)) : e.size < n.size := by
  obtain ⟨hmemo, rfl | he⟩ := replacement_cases h
  · rw [size_reference, size_eq]
    obtain ⟨f, ps, hparts⟩ := List.exists_cons_of_ne_nil (parts_ne_nil_of_isMemo hmemo)
    rw [hparts, sizeList, size_eq f]
    omega
  · obtain ⟨i, path, hpath⟩ := he.at?
    exact size_at?_lt hpath

theorem Visits.size_lt {n m : Node} (h : Visits n m) : m.size < n.size := by
  cases h with
  | replaced h => exact size_replacement_lt h
  | part _ hp => exact size_lt_of_mem hp

/-- Visiting comes to an end. -/
theorem visits_wf : WellFounded fun m n => Visits n m :=
  Subrelation.wf (fun h => h.size_lt) (measure size).wf

/-! ### What is met -/

/-- Whether a node with some property is visited, from a node on. -/
def Meets (Q : Node → Prop) (n : Node) : Prop := ∃ v, Relation.ReflTransGen Visits n v ∧ Q v

section Meets

variable {Q : Node → Prop} {n e : Node}

theorem meets_iff : n.Meets Q ↔ Q n ∨ ∃ p, Visits n p ∧ p.Meets Q := by
  constructor
  · rintro ⟨v, hv, hQ⟩
    rcases Relation.ReflTransGen.cases_head_iff.1 hv with rfl | ⟨p, hp, hv⟩
    · exact .inl hQ
    · exact .inr ⟨p, hp, v, hv, hQ⟩
  · rintro (hQ | ⟨p, hp, v, hv, hQ⟩)
    · exact ⟨n, .refl, hQ⟩
    · exact ⟨v, .head hp hv, hQ⟩

theorem meets_of_replaced (h : n.replacement = .ok (some e)) : n.Meets Q ↔ Q n ∨ e.Meets Q := by
  rw [meets_iff]
  refine or_congr_right ⟨?_, fun he => ⟨e, .replaced h, he⟩⟩
  rintro ⟨p, hp | ⟨hnone, -⟩, hmeets⟩
  · cases hp.symm.trans h
    exact hmeets
  · cases hnone.symm.trans h

theorem meets_of_kept (h : n.replacement = .ok none) :
    n.Meets Q ↔ Q n ∨ ∃ p ∈ n.parts, p.Meets Q := by
  rw [meets_iff]
  refine or_congr_right ⟨?_, ?_⟩
  · rintro ⟨p, hp | ⟨-, hp⟩, hmeets⟩
    · cases hp.symm.trans h
    · exact ⟨p, hp, hmeets⟩
  · rintro ⟨p, hp, hmeets⟩
    exact ⟨p, .part h hp, hmeets⟩

theorem meets_of_refused {x : Problem} (h : n.replacement = .error x) : n.Meets Q ↔ Q n := by
  rw [meets_iff]
  refine or_iff_left ?_
  rintro ⟨p, hp | ⟨hnone, -⟩, -⟩
  · cases hp.symm.trans h
  · cases hnone.symm.trans h

end Meets

variable {ns : List Node} {n : Node}

theorem unmemoList_error_iff :
    (∃ x, unmemoList ns = .error x) ↔ ∃ n ∈ ns, ∃ x, n.unmemo = .error x := by
  induction ns with
  | nil => simp [unmemoList]
  | cons n ns ih =>
    rw [List.exists_mem_cons_iff, ← ih, unmemoList]
    cases n.unmemo with
    | error x => exact iff_of_true ⟨x, rfl⟩ (.inl ⟨x, rfl⟩)
    | ok m =>
      cases unmemoList ns with
      | error x => exact iff_of_true ⟨x, rfl⟩ (.inr ⟨x, rfl⟩)
      | ok ms => exact iff_of_false (fun h => by cases h.choose_spec) (by simp)

/-- Replacing hooks fails if and only if one is met that is refused. -/
theorem unmemo_error_iff (n : Node) :
    (∃ x, n.unmemo = .error x) ↔ n.Meets fun v => ∃ x, v.replacement = .error x := by
  -- What replaces a node is not one of its parts, so the induction is along visits.
  induction n using visits_wf.induction with
  | _ n ih =>
    cases hr : n.replacement with
    | error x =>
      rw [unmemo_of_refused hr, meets_of_refused hr, hr]
      simp
    | ok r =>
      cases r with
      | some e =>
        rw [unmemo_of_replaced hr, meets_of_replaced hr, hr, ih e (.replaced hr)]
        simp
      | none =>
        have hparts : (∃ x, n.unmemo = .error x) ↔ ∃ x, unmemoList n.parts = .error x := by
          rw [unmemo_of_kept hr]
          cases unmemoList n.parts with
          | error x => exact iff_of_true ⟨x, rfl⟩ ⟨x, rfl⟩
          | ok ms =>
            exact iff_of_false (fun h => by cases h.choose_spec) fun h => by cases h.choose_spec
        rw [hparts, meets_of_kept hr, unmemoList_error_iff, hr]
        constructor
        · rintro ⟨p, hp, hx⟩
          exact .inr ⟨p, hp, (ih p (.part hr hp)).1 hx⟩
        · rintro (⟨x, hx⟩ | ⟨p, hp, hx⟩)
          · cases hx
          · exact ⟨p, hp, (ih p (.part hr hp)).2 hx⟩

/-! ### What is left -/

/-- Whether a call, which is no call of a hook that is replaced or refused, becomes one when
    the hooks of the function that it calls are replaced. -/
def Exposes (n : Node) : Prop :=
  n.replacement = .ok none ∧ n.kind.isExpressionCall = true ∧ ∃ f g h, n.parts.head? = some f ∧
    f.unmemo = .ok g ∧ g.calleeHook? = some h ∧ h.lasts = false

theorem replacement_eq_none_iff :
    n.replacement = .ok none ↔ n.expressionHook?.any (!·.lasts) = false := by
  unfold replacement
  cases n.expressionHook? with
  | none => simp
  | some h =>
    cases h
    case memo =>
      refine iff_of_false ?_ (by decide)
      dsimp only
      cases valueGiven n.span n.parts <;> exact fun h => by cases h
    all_goals simp [Hook.lasts]

/-- A node that is kept exposes a hook if it is a call of one afterwards. -/
theorem exposes_iff {ms : List Node} (hr : n.replacement = .ok none)
    (hms : List.Forall₂ (fun n m => n.unmemo = .ok m) n.parts ms) :
    n.Exposes ↔ (mk n.kind n.span ms).expressionHook?.any (!·.lasts) = true := by
  rw [expressionHook?_mk, Exposes]
  cases hcall : n.kind.isExpressionCall with
  | false => simp
  | true =>
    rw [if_pos rfl, Option.any_eq_true]
    generalize n.parts = ps at hms
    constructor
    · rintro ⟨-, -, f, g, h, hf, hfg, hg, hh⟩
      cases hms with
      | nil => cases hf
      | cons hfg' _ =>
        cases hf
        cases hfg.symm.trans hfg'
        exact ⟨h, hg, by rw [hh]; rfl⟩
    · rintro ⟨h, hg, hh⟩
      cases hms with
      | nil => cases hg
      | cons hfg _ => exact ⟨hr, rfl, _, _, h, rfl, hfg, hg, by simpa using hh⟩

/-- The calls that are left of hooks that are replaced or refused are those that become so
    only when the functions are replaced which they call. -/
theorem calls_iff_exposes {n m : Node} (h : n.unmemo = .ok m) :
    m.calls (!·.lasts) = true ↔ n.Meets Exposes := by
  induction n using visits_wf.induction generalizing m with
  | _ n ih =>
    cases hr : n.replacement with
    | error x => cases (unmemo_of_refused hr).symm.trans h
    | ok r =>
      cases r with
      | some e =>
        rw [unmemo_of_replaced hr] at h
        rw [ih e (.replaced hr) h, meets_of_replaced hr]
        -- A node that is replaced exposes nothing itself.
        refine (or_iff_right ?_).symm
        rintro ⟨hnone, -⟩
        cases hnone.symm.trans hr
      | none =>
        obtain ⟨ms, hparts, rfl⟩ := eq_of_kept hr h
        rw [calls_mk, Bool.or_eq_true, meets_of_kept hr]
        refine or_congr (exposes_iff hr hparts).symm ?_
        rw [List.any_eq_true]
        constructor
        · rintro ⟨q, hq, hcalls⟩
          obtain ⟨p, hp, hpq⟩ := exists_of_forall₂ hparts hq
          exact ⟨p, hp, (ih p (.part hr hp) hpq).1 hcalls⟩
        · rintro ⟨p, hp, hmeets⟩
          obtain ⟨q, hq, hpq⟩ := exists_of_forall₂ hparts.flip hp
          exact ⟨q, hq, (ih p (.part hr hp) hpq).2 hmeets⟩

/-! ### Doing it again -/

/-- There are no calls of hooks of which there are none. -/
theorem calls_eq_false {p : Hook → Bool} (hp : ∀ h, p h = false) (n : Node) :
    n.calls p = false := by
  induction n with
  | mk k s ps ih =>
    rw [calls_mk, Bool.or_eq_false_iff]
    refine ⟨?_, List.any_eq_false.2 fun q hq => by simpa using ih q hq⟩
    cases (mk k s ps).expressionHook? with
    | none => rfl
    | some h => exact hp h

theorem sizeList_unmemo {ps qs : List Node} (hqs : List.Forall₂ (fun p q => p.unmemo = .ok q) ps qs)
    (ih : ∀ p ∈ ps, ∀ q, p.unmemo = .ok q →
      q.size ≤ p.size ∧ (p.calls (!·.lasts) = true → q.size < p.size)) :
    sizeList qs ≤ sizeList ps ∧ (ps.any (calls (!·.lasts)) = true → sizeList qs < sizeList ps) := by
  induction hqs with
  | nil => exact ⟨Nat.le_refl _, fun h => by cases h⟩
  | @cons p q ps qs hpq hqs ihqs =>
    obtain ⟨hle, hlt⟩ := ih p List.mem_cons_self q hpq
    obtain ⟨hles, hlts⟩ := ihqs fun p hp => ih p (List.mem_cons_of_mem _ hp)
    rw [sizeList, sizeList, List.any_cons, Bool.or_eq_true]
    refine ⟨Nat.add_le_add hle hles, fun hcalls => ?_⟩
    rcases hcalls with hp | hps
    · exact Nat.add_lt_add_of_lt_of_le (hlt hp) hles
    · exact Nat.add_lt_add_of_le_of_lt hle (hlts hps)

/-- Replacing hooks makes no tree larger, and those smaller that have one. -/
theorem size_unmemo {n m : Node} (h : n.unmemo = .ok m) :
    m.size ≤ n.size ∧ (n.calls (!·.lasts) = true → m.size < n.size) := by
  induction n using visits_wf.induction generalizing m with
  | _ n ih =>
    cases hr : n.replacement with
    | error x => cases (unmemo_of_refused hr).symm.trans h
    | ok r =>
      cases r with
      | some e =>
        rw [unmemo_of_replaced hr] at h
        have hlt := Nat.lt_of_le_of_lt (ih e (.replaced hr) h).1 (size_replacement_lt hr)
        exact ⟨Nat.le_of_lt hlt, fun _ => hlt⟩
      | none =>
        obtain ⟨ms, hms, rfl⟩ := eq_of_kept hr h
        obtain ⟨k, s, ps⟩ := n
        rw [calls_mk, replacement_eq_none_iff.1 hr, Bool.false_or, size, size,
          Nat.add_lt_add_iff_right, Nat.add_le_add_iff_right]
        exact sizeList_unmemo hms fun p hp q hpq => ih p (.part hr hp) hpq

theorem unmemoList_eq_self (h : ∀ n ∈ ns, n.unmemo = .ok n) : unmemoList ns = .ok ns := by
  induction ns with
  | nil => rfl
  | cons n ns ih =>
    rw [unmemoList, h n List.mem_cons_self, ih fun n hn => h n (List.mem_cons_of_mem _ hn)]
    rfl

/-- Replacing hooks does nothing to a tree if and only if it has no hook that is replaced or
    refused. -/
theorem unmemo_eq_self_iff : n.unmemo = .ok n ↔ n.calls (!·.lasts) = false := by
  constructor
  · intro h
    -- With a hook in it, the tree would become smaller.
    refine Bool.eq_false_iff.2 fun hcalls => ?_
    exact Nat.lt_irrefl _ ((size_unmemo h).2 hcalls)
  · intro h
    induction n with
    | mk k s ps ih =>
      rw [calls_mk, Bool.or_eq_false_iff] at h
      have hps := unmemoList_eq_self fun p hp => ih p hp (by simpa using List.any_eq_false.1 h.2 p hp)
      rw [unmemo_of_kept (replacement_eq_none_iff.2 h.1), parts_mk, hps]
      rfl

theorem unmemoList_eq_self_iff : unmemoList ns = .ok ns ↔ ∀ n ∈ ns, n.calls (!·.lasts) = false := by
  constructor
  · intro h n hn
    exact unmemo_eq_self_iff.1 (List.forall₂_same.1 (forall₂_of_unmemoList h) n hn)
  · intro h
    exact unmemoList_eq_self fun n hn => unmemo_eq_self_iff.2 (h n hn)

end Node

namespace Component

open Node

theorem unmemo_error_iff (c : Component) : (∃ x, c.unmemo = .error x) ↔
    ∃ s ∈ c.module ++ c.body, s.Meets fun v => ∃ x, v.replacement = .error x := by
  have hlists : (∃ x, c.unmemo = .error x) ↔
      (∃ x, unmemoList c.module = .error x) ∨ ∃ x, unmemoList c.body = .error x := by
    unfold Component.unmemo
    cases unmemoList c.module with
    | error x => exact iff_of_true ⟨x, rfl⟩ (.inl ⟨x, rfl⟩)
    | ok module =>
      cases unmemoList c.body with
      | error x => exact iff_of_true ⟨x, rfl⟩ (.inr ⟨x, rfl⟩)
      | ok body => exact iff_of_false (fun h => by cases h.choose_spec) (by simp)
  simp only [hlists, unmemoList_error_iff, Node.unmemo_error_iff, List.mem_append, or_and_right,
    exists_or]

theorem unmemo_eq_self_iff {c : Component} :
    c.unmemo = .ok c ↔ ∀ s ∈ c.module ++ c.body, s.calls (!·.lasts) = false := by
  simp only [List.mem_append, or_imp, forall_and, ← unmemoList_eq_self_iff]
  constructor
  · intro h
    obtain ⟨module, body, hmodule, hbody, hc⟩ := unmemo_eq_ok h
    have hmodule' : c.module = module := congrArg Component.module hc
    have hbody' : c.body = body := congrArg Component.body hc
    exact ⟨hmodule.trans (congrArg _ hmodule'.symm), hbody.trans (congrArg _ hbody'.symm)⟩
  · rintro ⟨hmodule, hbody⟩
    rw [Component.unmemo, hmodule, hbody]
    rfl

/-- Replacing the memoizing hooks of a component comes to an end, though what replaces a
    hook is visited again, and it fails if and only if a hook is met that is refused. What
    is left of calls of hooks that are replaced or refused are exactly the calls that are
    visited before their functions are replaced, and become such calls then. Nothing is
    left to be replaced, and doing it again does nothing, if and only if there are none of
    them; so it is where no call of a memoizing hook, nor a member of one, is called. -/
theorem memo_hooks_left_iff (c : Component) :
    (∀ n : Node, n.unmemo = n.replacement.bind fun r =>
      r.elim ((unmemoList n.parts).map (.mk n.kind n.span)) Node.unmemo) ∧
    (WellFounded fun m n => Visits n m) ∧
    ((∃ x, c.unmemo = .error x) ↔
      ∃ s ∈ c.module ++ c.body, s.Meets fun v => ∃ x, v.replacement = .error x) ∧
    ∀ c', c.unmemo = .ok c' →
      ((∃ s ∈ c'.module ++ c'.body, s.calls (!·.lasts) = true) ↔
        ∃ s ∈ c.module ++ c.body, s.Meets Exposes) ∧
      (c'.unmemo = .ok c' ↔ ∀ s ∈ c'.module ++ c'.body, s.calls (!·.lasts) = false) ∧
      ((∀ s ∈ c.module ++ c.body, s.callsMemoized = false) →
        (∀ s ∈ c'.module ++ c'.body, s.calls (!·.lasts) = false) ∧ c'.unmemo = .ok c') := by
  refine ⟨unmemo_eq_bind, visits_wf, unmemo_error_iff c, fun c' h => ?_⟩
  have hstatements : List.Forall₂ (fun n m => n.unmemo = .ok m) (c.module ++ c.body)
      (c'.module ++ c'.body) := by
    obtain ⟨module, body, hmodule, hbody, rfl⟩ := unmemo_eq_ok h
    exact List.rel_append (forall₂_of_unmemoList hmodule) (forall₂_of_unmemoList hbody)
  have hquiet (hc : ∀ s ∈ c.module ++ c.body, s.callsMemoized = false) :
      ∀ s ∈ c'.module ++ c'.body, s.calls (!·.lasts) = false := by
    intro m hm
    obtain ⟨n, hn, hnm⟩ := exists_of_forall₂ hstatements hm
    refine Bool.eq_false_iff.2 fun hcalls => ?_
    -- A hook that is left would both last and not last.
    have hboth := calls_unmemo hnm (hc n hn) hcalls
    rw [calls_eq_false (fun h => by cases h.lasts <;> rfl)] at hboth
    cases hboth
  refine ⟨⟨?_, ?_⟩, unmemo_eq_self_iff, fun hc => ⟨hquiet hc, unmemo_eq_self_iff.2 (hquiet hc)⟩⟩
  · rintro ⟨m, hm, hcalls⟩
    obtain ⟨n, hn, hnm⟩ := exists_of_forall₂ hstatements hm
    exact ⟨n, hn, (calls_iff_exposes hnm).1 hcalls⟩
  · rintro ⟨n, hn, hmeets⟩
    obtain ⟨m, hm, hnm⟩ := exists_of_forall₂ hstatements.flip hn
    exact ⟨m, hm, (calls_iff_exposes hnm).2 hmeets⟩

/-- A hook within a hook, and another one in what replaces it. -/
def nestedSource : Text :=
  "const f = memo(React.useMemo(() => \x7b log(); return useCallback(g); \x7d));
  export default () => <p>\x7bf\x7d</p>;"

theorem nested_unmemoized : ∃ c c' : Component,
    compileThrough {} [.props, .state, .placement, .lowering] nestedSource = .ok c ∧
    c.unmemo = .ok c' ∧ (∀ s ∈ c.module ++ c.body, s.callsMemoized = false) ∧
    (c.module ++ c.body).countP (·.calls (!·.lasts)) = 1 ∧
    (c'.module ++ c'.body).map Node.printStatement =
      ["const f = g;".toList, "return <p>\x7bf\x7d</p>;".toList] ∧
    (∀ s ∈ c'.module ++ c'.body, s.calls (!·.lasts) = false) ∧ c'.unmemo = .ok c' := by
  have hsource : ((compileThrough {} [.props, .state, .placement, .lowering]
      nestedSource).toOption.bind fun c => c.unmemo.toOption.map fun c' =>
        ((c.module ++ c.body).all (!·.callsMemoized),
          (c.module ++ c.body).countP (·.calls (!·.lasts)),
          (c'.module ++ c'.body).map Node.printStatement)) =
      some (true, 1, ["const f = g;".toList, "return <p>\x7bf\x7d</p>;".toList]) := by
    rw [(by apply String.toList_ofList : nestedSource = _)]
    decide +kernel
  obtain ⟨c, hc, hsource⟩ := of_toOption_bind hsource
  obtain ⟨c', hc', hsource⟩ := of_toOption_map hsource
  obtain ⟨hcalled, hcount, hprinted⟩ : _ ∧ _ ∧ _ := by simpa only [Prod.mk.injEq] using hsource
  have hcalled (s : Node) (hs : s ∈ c.module ++ c.body) : s.callsMemoized = false := by
    simpa using List.all_eq_true.1 hcalled s hs
  exact ⟨c, c', hc, hc', hcalled, hcount, hprinted,
    ((memo_hooks_left_iff c).2.2.2 c' hc').2.2 hcalled⟩

/-- A hook that a memoizing hook gives is called, and this call is left; doing it again
    would replace it. -/
theorem given_hook_left :
    ((compileThrough {} [.props, .state, .placement, .lowering]
        "export default () => \x7b
          const a = useCallback(useMemo)(() => 1); return <p>\x7ba\x7d</p>; \x7d;"
      ).toOption.bind fun c => c.unmemo.toOption.bind fun c' => c'.unmemo.toOption.map fun c'' =>
            (c'.body.map Node.printStatement, c''.body.map Node.printStatement)) =
      some (["const a = useMemo(() => 1);".toList, "return <p>\x7ba\x7d</p>;".toList],
        ["const a = 1;".toList, "return <p>\x7ba\x7d</p>;".toList]) := by
  conv =>
    enter [1, 1, 1, 3]
    apply String.toList_ofList
  decide +kernel

end Component

end Unhook
