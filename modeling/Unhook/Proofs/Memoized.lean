import Mathlib.Data.List.Forall2
import Unhook.Hook.Memo
import Unhook.Proofs.Reactive
import Unhook.Proofs.Returns

/-!
# What hooks memoize

A memoizing hook is replaced by what it memoizes, in which hooks are replaced in
turn; a node of any other sort has the hooks of its parts replaced.

* `Node.replacement`: what a node is replaced by, if it is, which says all that
  there is to say about one node (`Node.unmemo_eq_bind`);
* `Node.Memoizes`: what a hook can memoize;
* `Node.unmemo_induction`: whatever holds between a tree and that tree without its
  hooks is proved by induction on what is within the tree.
-/

namespace Unhook

/-- Whether a hook memoizes. -/
def Hook.memoizes : Hook → Bool
  | memo | callback | component => true
  | _ => false

namespace Node

variable {n m : Node}

/-- Only calls are calls of hooks. -/
theorem kind_of_expressionHook? {h : Hook} (hn : n.expressionHook? = some h) :
    ∃ l pure, n.kind = .call l pure := by
  unfold expressionHook? at hn
  split at hn
  · next hk => exact ⟨_, _, hk⟩
  · cases hn

/-- Whether a node is a call of a memoizing hook in expression position. -/
def isMemo (n : Node) : Bool := n.expressionHook?.any Hook.memoizes

/-- A call of a memoizing hook, and what it memoizes: its argument, the value of a
    function without a block, or what a function returns first. -/
inductive Memoizes : Node → Node → Prop
  | argument {l : Link} {pure : Bool} {s : Span} {callee types a : Node} {rest : List Node} :
      Memoizes (mk (.call l pure) s (callee :: types :: a :: rest)) a
  | concise {l : Link} {pure : Bool} {s sa : Span} {callee types ts ps r b : Node}
      {rest : List Node} {f : ArrowForm} (hb : b.kind ≠ .functionBody) :
      Memoizes (mk (.call l pure) s (callee :: types :: mk (.arrow f) sa [ts, ps, r, b] :: rest)) b
  | returned {l : Link} {pure : Bool} {s sa sb sr : Span} {callee types e : Node}
      {rest parts ss : List Node} {k : Kind} (hk : k.isFunctional = true)
      (hbody : mk .functionBody sb ss ∈ parts) (he : mk .returnStatement sr [e] ∈ ss) :
      Memoizes (mk (.call l pure) s (callee :: types :: mk k sa parts :: rest)) e

theorem Memoizes.at? {n e : Node} (h : Memoizes n e) : ∃ i p, n.at? (i :: p) = some e := by
  cases h with
  | argument => exact ⟨2, [], rfl⟩
  | concise => exact ⟨2, [3], rfl⟩
  | returned hk hbody he =>
    obtain ⟨i, hi⟩ := List.getElem?_of_mem hbody
    obtain ⟨j, hj⟩ := List.getElem?_of_mem he
    exact ⟨2, [i, j, 0], by simp [hi, hj]⟩

theorem forall₂_of_unmemoList {ns ms : List Node} (h : unmemoList ns = .ok ms) :
    List.Forall₂ (fun n m => n.unmemo = .ok m) ns ms := by
  induction ns generalizing ms with
  | nil =>
    cases h
    exact .nil
  | cons n ns ih =>
    rw [unmemoList] at h
    obtain ⟨m, hm, h⟩ := of_bind_eq_ok h
    obtain ⟨ms, hms, h⟩ := of_bind_eq_ok h
    cases h
    exact .cons hm (ih hms)

/-- The first argument of a call of which the parts are given. -/
def firstGiven (s : Span) : List Node → Node
  | _ :: _ :: a :: _ => if a.kind = .spread then reference "undefined" s else a
  | _ => reference "undefined" s

/-- What the first return among some statements returns. -/
def firstReturned (s : Span) : List Node → Node
  | [] => reference "undefined" s
  | n :: ns =>
    match n with
    | mk .returnStatement _ [e] => if e.isAbsent then reference "undefined" s else e
    | _ => firstReturned s ns

/-- The value that is memoized by a call of which the parts are given. -/
def valueGiven (s : Span) : List Node → Except Problem Node
  | _ :: _ :: a :: _ =>
    match a with
    | mk (.arrow _) _ [_, _, _, mk .functionBody _ ss] => .ok (firstReturned s ss)
    | mk (.arrow _) _ [_, _, _, b] => .ok b
    | mk (.function _) _ [_, _, _, _, mk .functionBody _ ss] => .ok (firstReturned s ss)
    | mk (.function _) _ _ => .ok (reference "undefined" s)
    | _ => .error ⟨.memoArgument, s⟩
  | _ => .error ⟨.memoArgument, s⟩

/-- What a node is replaced by when it is visited, if it is a hook that is replaced; an
    error if it is one that is refused. -/
def replacement (n : Node) : Except Problem (Option Node) :=
  match n.expressionHook? with
  | some .memo => (valueGiven n.span n.parts).map some
  | some .callback | some .component => .ok (some (firstGiven n.span n.parts))
  | some .reducer => .error ⟨.reducer, n.span⟩
  | _ => .ok none

theorem unmemoReturn_eq (s : Span) (ss : List Node) :
    unmemoReturn s ss = (firstReturned s ss).unmemo := by
  fun_induction firstReturned s ss with
  | case1 => rfl
  | case2 ns sp e h =>
    rw [unmemoReturn, if_pos h]
    rfl
  | case3 ns sp e h => rw [unmemoReturn, if_neg h]
  | case4 n ns hn ih => rw [unmemoReturn, ih]; exact hn

theorem unmemoFirst_eq (s : Span) (ps : List Node) : unmemoFirst s ps = (firstGiven s ps).unmemo := by
  fun_cases firstGiven s ps with
  | case1 _ _ a _ h =>
    rw [unmemoFirst, if_pos h]
    rfl
  | case2 _ _ a _ h => rw [unmemoFirst, if_neg h]
  | case3 ps h =>
    rw [unmemoFirst]
    · rfl
    · exact h

theorem unmemoValue_eq (s : Span) (ps : List Node) :
    unmemoValue s ps = (valueGiven s ps).bind unmemo := by
  fun_cases valueGiven s ps with
  | case1 => exact unmemoReturn_eq _ _
  | case2 _ _ _ _ _ _ _ _ b hb =>
    rw [unmemoValue]
    · rfl
    · exact hb
  | case3 => exact unmemoReturn_eq _ _
  | case4 _ _ _ _ _ _ hbody =>
    rw [unmemoValue]
    · rfl
    · exact hbody
  | case5 _ _ a _ h1 h2 h3 h4 =>
    rw [unmemoValue]
    · rfl
    · exact h1
    · exact h2
    · exact h3
    · exact h4
  | case6 ps h =>
    rw [unmemoValue]
    · rfl
    · exact h

/-- A node is replaced, and what replaces it is visited; or it is refused; or its parts are
    visited. -/
theorem unmemo_eq_bind (n : Node) : n.unmemo = n.replacement.bind fun r =>
    r.elim ((unmemoList n.parts).map (mk n.kind n.span)) unmemo := by
  obtain ⟨k, s, ps⟩ := n
  fun_cases replacement (mk k s ps) with
  | case1 h =>
    rw [unmemo, h, unmemoValue_eq, span_mk, parts_mk]
    cases valueGiven s ps <;> rfl
  | case2 h =>
    rw [unmemo, h]
    exact unmemoFirst_eq s ps
  | case3 h =>
    rw [unmemo, h]
    exact unmemoFirst_eq s ps
  | case4 h =>
    rw [unmemo, h]
    rfl
  | case5 hmemo hcallback hcomponent hreducer =>
    rw [parts_mk]
    unfold unmemo
    split
    case h_5 => cases unmemoList ps <;> rfl
    all_goals contradiction

theorem unmemo_of_replaced {n e : Node} (h : n.replacement = .ok (some e)) :
    n.unmemo = e.unmemo := by
  rw [unmemo_eq_bind, h]
  rfl

theorem unmemo_of_refused {e : Problem} (h : n.replacement = .error e) : n.unmemo = .error e := by
  rw [unmemo_eq_bind, h]
  rfl

theorem unmemo_of_kept (h : n.replacement = .ok none) :
    n.unmemo = (unmemoList n.parts).map (mk n.kind n.span) := by
  rw [unmemo_eq_bind, h]
  rfl

theorem eq_of_kept (hr : n.replacement = .ok none) (h : n.unmemo = .ok m) :
    ∃ ms, List.Forall₂ (fun n m => n.unmemo = .ok m) n.parts ms ∧ m = mk n.kind n.span ms := by
  rw [unmemo_of_kept hr] at h
  cases hms : unmemoList n.parts with
  | error x =>
    rw [hms] at h
    cases h
  | ok ms =>
    rw [hms] at h
    cases h
    exact ⟨ms, forall₂_of_unmemoList hms, rfl⟩

theorem firstReturned_cases (s : Span) (ss : List Node) :
    firstReturned s ss = reference "undefined" s ∨
      ∃ sr, mk .returnStatement sr [firstReturned s ss] ∈ ss := by
  fun_induction firstReturned s ss with
  | case1 | case2 => exact .inl rfl
  | case3 ns sr e h => exact .inr ⟨sr, List.mem_cons_self⟩
  | case4 n ns hn ih =>
    refine ih.imp_right fun h => ?_
    obtain ⟨sr, h⟩ := h
    exact ⟨sr, List.mem_cons_of_mem _ h⟩

/-- A call is replaced by what it memoizes, if that is given. -/
theorem replacement_cases {n e : Node} (h : n.replacement = .ok (some e)) :
    n.isMemo = true ∧ (e = reference "undefined" n.span ∨ Memoizes n e) := by
  obtain ⟨k, s, ps⟩ := n
  have hfirst {hook : Hook} (hk : (mk k s ps).expressionHook? = some hook) :
      firstGiven s ps = reference "undefined" s ∨ Memoizes (mk k s ps) (firstGiven s ps) := by
    obtain ⟨l, pure, rfl⟩ := kind_of_expressionHook? hk
    fun_cases firstGiven s ps with
    | case1 | case3 => exact .inl rfl
    | case2 => exact .inr .argument
  unfold isMemo
  unfold replacement at h
  split at h
  · next hk =>
    obtain ⟨l, pure, rfl⟩ := kind_of_expressionHook? hk
    refine ⟨by rw [hk]; rfl, ?_⟩
    revert h
    rw [span_mk, parts_mk]
    fun_cases valueGiven s ps with
    | case1 _ _ _ _ _ _ _ _ _ ss =>
      rintro ⟨⟩
      refine (firstReturned_cases s ss).imp_right fun h => ?_
      obtain ⟨sr, h⟩ := h
      exact .returned rfl (List.mem_of_getElem? (i := 3) rfl) h
    | case2 _ _ _ _ _ _ _ _ b hb =>
      rintro ⟨⟩
      refine .inr (.concise fun hkind => ?_)
      obtain ⟨kb, sb, ss⟩ := e
      obtain rfl : kb = .functionBody := hkind
      exact hb sb ss rfl
    | case3 _ _ _ _ _ _ _ _ _ _ ss =>
      rintro ⟨⟩
      refine (firstReturned_cases s ss).imp_right fun h => ?_
      obtain ⟨sr, h⟩ := h
      exact .returned rfl (List.mem_of_getElem? (i := 4) rfl) h
    | case4 =>
      rintro ⟨⟩
      exact .inl rfl
    | case5 | case6 => exact fun h => by cases h
  · next hk =>
    cases h
    exact ⟨by rw [hk]; rfl, hfirst hk⟩
  · next hk =>
    cases h
    exact ⟨by rw [hk]; rfl, hfirst hk⟩
  · cases h
  · cases h

theorem not_hook_of_kept (h : n.replacement = .ok none) :
    n.isMemo = false ∧ n.expressionHook? ≠ some .reducer := by
  unfold replacement at h
  unfold isMemo
  split at h
  · cases hv : valueGiven n.span n.parts <;> rw [hv] at h <;> cases h
  · cases h
  · cases h
  · cases h
  · next hmemo hcallback hcomponent hreducer =>
    refine ⟨?_, hreducer⟩
    cases hk : n.expressionHook? with
    | none => rfl
    | some hook => cases hook <;> first | rfl | contradiction

/-- What becomes of a node: a call of a memoizing hook is replaced by what it
    memoizes, and any other node is kept. -/
theorem unmemo_cases (h : n.unmemo = .ok m) :
    (n.isMemo = false ∧ n.expressionHook? ≠ some .reducer ∧ ∃ ms,
      List.Forall₂ (fun n m => n.unmemo = .ok m) n.parts ms ∧ m = mk n.kind n.span ms) ∨
    n.isMemo = true ∧ (m = reference "undefined" n.span ∨
      ∃ e, Memoizes n e ∧ e.unmemo = .ok m) := by
  cases hr : n.replacement with
  | error x =>
    rw [unmemo_of_refused hr] at h
    cases h
  | ok r =>
    cases r with
    | none =>
      obtain ⟨hmemo, hreducer⟩ := not_hook_of_kept hr
      exact .inl ⟨hmemo, hreducer, eq_of_kept hr h⟩
    | some e =>
      obtain ⟨hmemo, he⟩ := replacement_cases hr
      rw [unmemo_of_replaced hr] at h
      refine .inr ⟨hmemo, he.imp (fun he => ?_) fun he => ⟨e, he, h⟩⟩
      subst he
      cases h
      rfl

/-- What is no call of a memoizing hook keeps its kind. -/
theorem kind_of_unmemo (h : n.unmemo = .ok m) (hn : n.isMemo = false) : m.kind = n.kind := by
  rcases unmemo_cases h with ⟨-, -, ms, -, rfl⟩ | ⟨hmemo, -⟩
  · rfl
  · rw [hn] at hmemo
    cases hmemo

/-- What is kept by replacing parts and by replacing a hook holds between every tree
    and that tree without its hooks. -/
theorem unmemo_induction {motive : Node → Node → Prop}
    (parts : ∀ {k s ps ms}, (mk k s ps).isMemo = false →
      (mk k s ps).expressionHook? ≠ some .reducer →
      List.Forall₂ (fun n m => n.unmemo = .ok m ∧ motive n m) ps ms →
      motive (mk k s ps) (mk k s ms))
    (undefined : ∀ {n}, n.isMemo = true → motive n (reference "undefined" n.span))
    (memoized : ∀ {n e m}, n.isMemo = true → Memoizes n e → motive e m → motive n m)
    (h : n.unmemo = .ok m) : motive n m := by
  induction n using strongInd generalizing m with
  | step n ih =>
    rcases unmemo_cases h with ⟨hmemo, hreducer, ms, hms, rfl⟩ | ⟨hmemo, rfl | ⟨e, he, h⟩⟩
    · obtain ⟨k, s, ps⟩ := n
      refine parts hmemo hreducer (List.forall₂_iff_get.2 ⟨hms.length_eq, fun i hi hi' => ?_⟩)
      exact ⟨hms.get hi hi', ih i [] _ (by simp [at?]) (hms.get hi hi')⟩
    · exact undefined hmemo
    · obtain ⟨i, p, hat⟩ := he.at?
      exact memoized hmemo he (ih i p e hat h)

end Node

end Unhook
