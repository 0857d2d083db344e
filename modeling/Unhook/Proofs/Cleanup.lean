import Unhook.Hook.Effect
import Unhook.Proofs.Reactive
import Unhook.Proofs.Tree

/-!
# The cleanup of an effect

The function of an effect is taken apart into its cleanup, which is its concise body or
what the last return of its body gives back, and what is left of it. Nothing is left if
the function has a cleanup and no statement besides. Both are the function itself or are
made of parts of its body, so that much of what is known of a function is known of what
is registered for it.

* `Effect.Splits`: the cleanup of a function, and what is left of it;
* `Effect.Splits.callback_eq_none_iff`: when nothing is left;
* `Effect.TakenFrom`: what the functions that are registered for an effect are made of.
-/

namespace Unhook

/-- A value is given back by a return that has it as its part. -/
theorem Component.returnValue?_eq_some {r e : Node} (h : returnValue? r = some e) :
    ∃ s, r = .mk .returnStatement s [e] := by
  unfold returnValue? at h
  split at h
  · unfold Node.present? at h
    split at h
    · cases h
    · cases h
      exact ⟨_, rfl⟩
  · cases h

namespace Effect

variable {callback cleanup : Option Node} {hook : Hook} {e : Effect} {f call : Node}

open Node

/-! ### The last return -/

/-- Whether a return is the last one of statements that end with `after`. -/
def IsLastReturn (r : Node) (after : List Node) : Prop :=
  r.kind = .returnStatement ∧ ∀ s ∈ after, s.kind ≠ .returnStatement

theorem splitReturn?_eq_none {ss : List Node} (h : ∀ s ∈ ss, s.kind ≠ .returnStatement) :
    splitReturn? ss = none := by
  induction ss with
  | nil => rfl
  | cons s ss ih =>
    rw [splitReturn?, ih fun s hs => h s (List.mem_cons_of_mem _ hs)]
    exact if_neg (h s List.mem_cons_self)

theorem forall_of_splitReturn?_eq_none {ss : List Node} (h : splitReturn? ss = none) :
    ∀ s ∈ ss, s.kind ≠ .returnStatement := by
  induction ss with
  | nil => exact fun s hs => (List.not_mem_nil hs).elim
  | cons s ss ih =>
    rw [splitReturn?] at h
    split at h
    · cases h
    · next hnone =>
      split at h
      · cases h
      · next hs => exact List.forall_mem_cons.2 ⟨hs, ih hnone⟩

/-- Statements are split at their last return. -/
theorem splitReturn?_eq_some_iff {ss before after : List Node} {r : Node} :
    splitReturn? ss = some (before, r, after) ↔ ss = before ++ r :: after ∧ IsLastReturn r after := by
  constructor
  · intro h
    induction ss generalizing before with
    | nil => cases h
    | cons s ss ih =>
      rw [splitReturn?] at h
      split at h
      · next hss =>
        cases h
        obtain ⟨rfl, hr⟩ := ih hss
        exact ⟨rfl, hr⟩
      · next hnone =>
        split at h
        · next hs =>
          cases h
          exact ⟨rfl, hs, forall_of_splitReturn?_eq_none hnone⟩
        · cases h
  · rintro ⟨rfl, hr, hafter⟩
    induction before with
    | nil => rw [List.nil_append, splitReturn?, splitReturn?_eq_none hafter]; exact if_pos hr
    | cons s before ih => rw [List.cons_append, splitReturn?, ih]

/-! ### What is left of a function -/

/-- The cleanup of the function of an effect, and what is left of the function: a concise
    body is a cleanup or is not, and a body of statements returns its cleanup with its
    last return, which is taken out. -/
inductive Splits (f : Node) : (callback cleanup : Option Node) → Prop
  | concise (hbody : f.body.kind ≠ .functionBody)
      (h : f.body.isAbsent = true ∨ isCleanup f.body = false) : Splits f (some f) none
  | conciseCleanup (hbody : f.body.kind ≠ .functionBody) (hpresent : f.body.isAbsent = false)
      (h : isCleanup f.body = true) : Splits f none (some f.body)
  | unreturned {s : Span} {parts : List Node} (hbody : f.body = .mk .functionBody s parts)
      (h : ∀ p ∈ parts, p.kind ≠ .returnStatement) : Splits f (some f) none
  | bare {s : Span} {before after : List Node} {r : Node}
      (hbody : f.body = .mk .functionBody s (before ++ r :: after)) (hr : IsLastReturn r after)
      (h : Component.returnValue? r = none) :
      Splits f (some (withBody (.mk .functionBody s (before ++ after)) f)) none
  | returned {s : Span} {before after : List Node} {r e : Node}
      (hbody : f.body = .mk .functionBody s (before ++ r :: after)) (hr : IsLastReturn r after)
      (h : Component.returnValue? r = some e) (he : isCleanup e = true)
      (hleft : ∃ p ∈ before ++ after, p.isDirective = false) :
      Splits f (some (withBody (.mk .functionBody s (before ++ after)) f)) (some e)
  | emptied {s : Span} {before after : List Node} {r e : Node}
      (hbody : f.body = .mk .functionBody s (before ++ r :: after)) (hr : IsLastReturn r after)
      (h : Component.returnValue? r = some e) (he : isCleanup e = true)
      (hleft : ∀ p ∈ before ++ after, p.isDirective = true) : Splits f none (some e)

theorem withBody_body (f : Node) : withBody f.body f = f := by
  unfold withBody
  split <;> rfl

/-- The parts of a body without its last return, and its cleanup. -/
theorem takeCleanup_cases {parts parts' : List Node} {cleanup : Option Node}
    (h : takeCleanup parts = .ok (parts', cleanup)) :
    (cleanup = none ∧ parts' = parts ∧ ∀ p ∈ parts, p.kind ≠ .returnStatement) ∨
    ∃ before r after, parts = before ++ r :: after ∧ IsLastReturn r after ∧
      parts' = before ++ after ∧ cleanup = Component.returnValue? r ∧
      ∀ e, cleanup = some e → isCleanup e = true := by
  unfold takeCleanup at h
  split at h
  · next hnone =>
    cases h
    exact .inl ⟨rfl, rfl, forall_of_splitReturn?_eq_none hnone⟩
  · next before r after hsplit =>
    obtain ⟨hparts, hr⟩ := splitReturn?_eq_some_iff.1 hsplit
    refine .inr ⟨before, r, after, hparts, hr, ?_⟩
    split at h
    · next hvalue =>
      cases h
      exact ⟨rfl, hvalue.symm, fun e he => by cases he⟩
    · next e hvalue =>
      split at h
      · next he =>
        cases h
        exact ⟨rfl, hvalue.symm, fun e' he' => Option.some.inj he' ▸ he⟩
      · cases h

theorem splits_of_split_eq_ok
    (h : split f = .ok (callback, cleanup)) : Splits f callback cleanup := by
  unfold split at h
  split at h
  · next s parts hbody =>
    obtain ⟨taken, htake, hleft⟩ := of_bind_eq_ok h
    obtain ⟨parts', cleanup'⟩ := taken
    clear h
    dsimp only at hleft
    -- Only where a return has been taken out can there be nothing left.
    rcases takeCleanup_cases htake with
      ⟨rfl, rfl, hparts⟩ | ⟨before, r, after, rfl, hr, rfl, hvalue, hcleanup⟩
    · rw [if_neg (by simp)] at hleft
      cases hleft
      rw [← hbody, withBody_body]
      exact .unreturned hbody hparts
    · cases cleanup' with
      | none =>
        rw [if_neg (by simp)] at hleft
        cases hleft
        exact .bare hbody hr hvalue.symm
      | some e =>
        have he := hcleanup e rfl
        split at hleft
        · next hall =>
          cases hleft
          exact .emptied hbody hr hvalue.symm he (List.all_eq_true.1 hall.2)
        · next hall =>
          cases hleft
          have hall : (before ++ after).all isDirective ≠ true := fun h => hall ⟨rfl, h⟩
          obtain ⟨p, hp, hdirective⟩ := List.all_eq_false.1 (Bool.eq_false_iff.2 hall)
          exact .returned hbody hr hvalue.symm he ⟨p, hp, Bool.eq_false_iff.2 hdirective⟩
  · next b hb =>
    have hkind : f.body.kind ≠ .functionBody := by
      intro hkind
      generalize f.body = b at hb hkind
      obtain ⟨k, s, ps⟩ := b
      exact hb s ps (by rw [← hkind, kind_mk])
    split at h
    · next hcleanup =>
      cases h
      obtain ⟨hpresent, hcleanup⟩ := Bool.and_eq_true_iff.1 hcleanup
      exact .conciseCleanup hkind (by simpa using hpresent) hcleanup
    · next hcleanup =>
      cases h
      refine .concise hkind ?_
      cases hpresent : f.body.isAbsent with
      | true => exact .inl rfl
      | false => exact .inr (by simpa [hpresent] using hcleanup)

/-- Whether a function has no statement besides its last return. -/
def Emptied (f : Node) : Prop :=
  ∀ s before r after, f.body = .mk .functionBody s (before ++ r :: after) → IsLastReturn r after →
    ∀ p ∈ before ++ after, p.isDirective = true

/-- The last return of a function is one. -/
theorem emptied_iff {f r : Node} {s : Span} {before after : List Node}
    (hbody : f.body = .mk .functionBody s (before ++ r :: after)) (hr : IsLastReturn r after) :
    Emptied f ↔ ∀ p ∈ before ++ after, p.isDirective = true := by
  refine ⟨fun h => h s before r after hbody hr, fun h s' before' r' after' hbody' hr' => ?_⟩
  have hparts := (Node.mk.inj (hbody.symm.trans hbody')).2.2
  have hsplit := (splitReturn?_eq_some_iff.2 ⟨rfl, hr⟩).symm.trans
    (splitReturn?_eq_some_iff.2 ⟨hparts, hr'⟩)
  cases hsplit
  exact h

/-- Of a function something is left, unless it has a cleanup and no statement besides. -/
theorem Splits.callback_eq_none_iff
    (h : Splits f callback cleanup) : callback = none ↔ cleanup ≠ none ∧ Emptied f := by
  cases h with
  | concise | unreturned | bare => simp
  | conciseCleanup hbody =>
    refine iff_of_true rfl ⟨Option.some_ne_none _, fun s before r after hf => ?_⟩
    rw [hf] at hbody
    exact (hbody rfl).elim
  | returned hbody hr h he hleft =>
    obtain ⟨p, hp, hdirective⟩ := hleft
    refine iff_of_false (Option.some_ne_none _) fun hempty => ?_
    have hp := (emptied_iff hbody hr).1 hempty.2 p hp
    cases hp.symm.trans hdirective
  | emptied hbody hr h he hleft =>
    exact iff_of_true rfl ⟨Option.some_ne_none _, (emptied_iff hbody hr).2 hleft⟩

/-- Of an effect something is left. -/
theorem Splits.ne_none (h : Splits f callback cleanup) : callback ≠ none ∨ cleanup ≠ none := by
  by_cases hcallback : callback = none
  · exact .inr (h.callback_eq_none_iff.1 hcallback).1
  · exact .inl hcallback

/-! ### What is registered -/

/-- What the functions that are registered for an effect with the function `f` are made
    of. -/
inductive TakenFrom (f : Node) : Node → Prop
  | whole : TakenFrom f f
  | left {s : Span} {parts parts' : List Node} (hbody : f.body = .mk .functionBody s parts)
      (h : parts'.Sublist parts) : TakenFrom f (withBody (.mk .functionBody s parts') f)
  | concise (hbody : f.body.kind ≠ .functionBody) : TakenFrom f f.body
  | returned {s sr : Span} {parts : List Node} {e : Node}
      (hbody : f.body = .mk .functionBody s parts) (h : .mk .returnStatement sr [e] ∈ parts) :
      TakenFrom f e

theorem Splits.takenFrom_callback {f g : Node} {cleanup : Option Node}
    (h : Splits f (some g) cleanup) : TakenFrom f g := by
  have hsub (before after : List Node) (r : Node) :
      (before ++ after).Sublist (before ++ r :: after) :=
    (List.Sublist.refl before).append (List.sublist_cons_self r after)
  cases h with
  | concise | unreturned => exact .whole
  | bare hbody | returned hbody => exact .left hbody (hsub _ _ _)

theorem Splits.takenFrom_cleanup {f e : Node} {callback : Option Node}
    (h : Splits f callback (some e)) : TakenFrom f e := by
  cases h with
  | conciseCleanup hbody => exact .concise hbody
  | returned hbody _ h | emptied hbody _ h =>
    obtain ⟨sr, rfl⟩ := Component.returnValue?_eq_some h
    exact .returned hbody (List.mem_append_right _ List.mem_cons_self)

theorem ofStatement?_eq_some {s call : Node}
    (h : ofStatement? s = some (hook, call)) : ∃ sp, s = .mk .expressionStatement sp [call] ∧
      call.expressionHook? = some hook ∧ hook.isEffect = true := by
  unfold ofStatement? at h
  split at h
  · split at h
    · next hk =>
      split at h
      · next he =>
        cases h
        exact ⟨_, rfl, hk, he⟩
      · cases h
    · cases h
  · cases h

/-- An effect is given a function, which is taken apart. -/
theorem splits_of_ofCall (h : ofCall hook call = .ok e) :
    ∃ f, call.firstArgument? = some f ∧ f.isFunction = true ∧
      e.moment = momentOf call.arguments ∧ Splits f e.callback e.cleanup := by
  unfold ofCall at h
  split at h
  · cases h
  · next f hf =>
    obtain ⟨parts, hsplit, h⟩ := of_bind_eq_ok h
    cases h
    obtain ⟨hf, hfunction⟩ := Option.filter_eq_some_iff.1 hf
    exact ⟨f, hf, hfunction, rfl, splits_of_split_eq_ok hsplit⟩

theorem mem_registrations {m : Lifecycle} : (m, f) ∈ e.registrations ↔
    (e.callback = some f ∧ m = e.moment) ∨ (e.cleanup = some f ∧ m = .destroy) := by
  have hmem (o : Option Node) (m' : Lifecycle) :
      (∃ g, o = some g ∧ (m', g) = (m, f)) ↔ o = some f ∧ m = m' := by
    constructor
    · rintro ⟨g, rfl, h⟩
      cases h
      exact ⟨rfl, rfl⟩
    · rintro ⟨rfl, rfl⟩
      exact ⟨f, rfl, rfl⟩
  rw [registrations, List.mem_append, Option.mem_toList, Option.mem_toList,
    Option.map_eq_some_iff, Option.map_eq_some_iff, hmem, hmem]

/-- For an effect something is registered. -/
theorem registrations_ne_nil (h : ofCall hook call = .ok e) : e.registrations ≠ [] := by
  obtain ⟨f, -, -, -, hsplits⟩ := splits_of_ofCall h
  rcases hsplits.ne_none with h | h
  · obtain ⟨g, hg⟩ := Option.ne_none_iff_exists'.1 h
    exact List.ne_nil_of_mem (mem_registrations.2 (.inl ⟨hg, rfl⟩))
  · obtain ⟨g, hg⟩ := Option.ne_none_iff_exists'.1 h
    exact List.ne_nil_of_mem (mem_registrations.2 (.inr ⟨hg, rfl⟩))

/-- What is registered for an effect is taken from its function. -/
theorem takenFrom_of_mem_registrations (h : ofCall hook call = .ok e) {m : Lifecycle} {g : Node}
    (hg : (m, g) ∈ e.registrations) : ∃ f, call.firstArgument? = some f ∧ TakenFrom f g := by
  obtain ⟨f, hf, -, -, hsplits⟩ := splits_of_ofCall h
  refine ⟨f, hf, ?_⟩
  rcases mem_registrations.1 hg with ⟨hg, -⟩ | ⟨hg, -⟩
  · rw [hg] at hsplits
    exact hsplits.takenFrom_callback
  · rw [hg] at hsplits
    exact hsplits.takenFrom_cleanup

end Effect

end Unhook
