import Unhook.Proofs.Frozen
import Unhook.Proofs.Untouched

/-!
# What is left of hooks

No step brings up a call of a hook, so that it is enough for each hook that one step
takes its calls away: state when it is extracted, effects and memoizing hooks when hooks
are taken apart. There are three ways out: the text of a block is written before hooks
are taken apart, so that the calls in it stay; the defaults of props are not looked at;
and a memoizing hook that is itself called leaves a call of what it memoizes, which may
be another hook.

* `Node.Hushes`: a node that can take the place of another one without a call of a hook
  coming up;
* `Node.calls_unmemo`: what is left when memoizing hooks are taken apart;
* `Component.hooks_left`: which calls of hooks are left in the end.
-/

namespace Unhook

variable {p : Hook → Bool}

/-- Whether calls of a hook are left when memoizing hooks are taken apart. -/
def Hook.lasts : Hook → Bool
  | state | effect | layoutEffect => true
  | _ => false

namespace Node

/-- A node `m` that can take the place of `n`: it calls a hook only if `n` does, and it is
    a hook or the framework only if `n` is. -/
structure Hushes (p : Hook → Bool) (n m : Node) : Prop where
  calls : m.calls p = true → n.calls p = true
  framework : m.identifier? = some frameworkNamespace → n.identifier? = some frameworkNamespace
  callee : ∀ h, m.calleeHook? = some h → n.calleeHook? = some h

namespace Hushes

variable {k : Kind} {s : Span} {ps qs : List Node}

theorem trans {a b c : Node} (h : Hushes p a b) (h' : Hushes p b c) : Hushes p a c :=
  ⟨h.calls ∘ h'.calls, h.framework ∘ h'.framework, fun x hx => h.callee x (h'.callee x hx)⟩

/-- What is no name and no member is no hook. -/
theorem of_calls {n m : Node} (hname : m.identifier? = none) (hcallee : m.calleeHook? = none)
    (h : m.calls p = true → n.calls p = true) : Hushes p n m := by
  refine ⟨h, fun hm => ?_, fun x hm => ?_⟩
  · cases hname.symm.trans hm
  · cases hcallee.symm.trans hm

theorem any_calls (h : List.Forall₂ (Hushes p) ps qs) (hqs : qs.any (Node.calls p) = true) :
    ps.any (Node.calls p) = true := by
  obtain ⟨q, hq, hcalls⟩ := List.any_eq_true.1 hqs
  obtain ⟨n, hn, hnq⟩ := exists_of_forall₂ h hq
  exact List.any_eq_true.2 ⟨n, hn, hnq.calls hcalls⟩

/-- The hook that a member of the framework is, is that of the node before. -/
theorem callee_parts (h : List.Forall₂ (Hushes p) ps qs) {x : Hook}
    (hx : (Node.mk k s qs).calleeHook? = some x) : (Node.mk k s ps).calleeHook? = some x := by
  cases k
  case member link name =>
    obtain ⟨o, chained⟩ := link
    cases chained
    · rcases h with _ | ⟨hpq, _ | _⟩
      case cons.nil =>
        rw [calleeHook?, calleeName?_member] at hx ⊢
        obtain ⟨y, hy, hx⟩ := Option.bind_eq_some_iff.1 hx
        obtain ⟨z, hz, hy⟩ := Option.bind_eq_some_iff.1 hy
        split at hy
        · next hframework =>
          cases hy
          rw [hpq.framework (hframework ▸ hz)]
          exact hx
        · cases hy
      all_goals simp [calleeHook?, calleeName?] at hx
    · cases hx
  all_goals exact hx

/-- Parts can be replaced. -/
theorem parts (h : List.Forall₂ (Hushes p) ps qs) : Hushes p (.mk k s ps) (.mk k s qs) where
  calls hcalls := by
    rw [calls_mk, expressionHook?_mk, Bool.or_eq_true] at hcalls ⊢
    refine hcalls.imp (fun hcall => ?_) (any_calls h)
    cases hk : k.isExpressionCall
    · rw [hk] at hcall
      cases hcall
    · rw [hk] at hcall
      cases h with
      | nil => exact hcall
      | @cons n m _ _ hpq _ =>
        have hcall : m.calleeHook?.any p = true := hcall
        show n.calleeHook?.any p = true
        cases hm : m.calleeHook? with
        | none =>
          rw [hm] at hcall
          cases hcall
        | some x => rwa [hpq.callee x hm, ← hm]
  framework hm := by
    rw [identifier?_congr (n := .mk k s qs) (m := .mk k s ps) rfl]
    exact hm
  callee x := callee_parts h

theorem map {f : Node → Node} (h : ∀ n ∈ ps, Hushes p n (f n)) :
    Hushes p (.mk k s ps) (.mk k s (ps.map f)) :=
  .parts (List.forall₂_map_right_iff.2 (List.forall₂_same.2 h))

end Hushes

theorem calls_of_mem {n m : Node} (hm : m ∈ n.parts) (h : m.calls p = true) :
    n.calls p = true := any_of_mem hm h

/-- What is no call in expression position calls what its parts call. -/
theorem calls_of_kind {k : Kind} (hk : k.isExpressionCall = false) (s : Span) (ps : List Node) :
    (mk k s ps).calls p = ps.any (calls p) := by
  rw [calls_mk, expressionHook?_mk, hk]
  rfl

theorem calls_leaf {k : Kind} (hk : k.isExpressionCall = false) (s : Span) :
    (mk k s []).calls p = false := calls_of_kind hk s []

/-! ### Setters -/

theorem calls_setterCall {v : Text} {arguments : List Node}
    (h : (setterCall v arguments).calls p = true) : arguments.any (calls p) = true := by
  obtain ⟨value, s, hvalue, hcases⟩ := setterCall_cases v arguments
  have hcalls : value.calls p = true := by
    rw [hvalue, assigning, calls_of_kind rfl, List.any_cons, calls_leaf rfl] at h
    simpa using h
  rcases hcases with rfl | ⟨a, ha, rfl | ⟨hfunction, rfl⟩⟩
  · cases hcalls
  · exact List.any_eq_true.2 ⟨_, ha, hcalls⟩
  · -- A function is no hook, so calling it is no call of one.
    have hnone : a.calleeHook? = none := by
      obtain ⟨k, sa, ps⟩ := a
      cases k
      case arrow | function => rfl
      all_goals cases hfunction
    have hhook : (calling a [reference v s] s).expressionHook? = none := hnone
    rw [calling] at hhook hcalls
    rw [calls_mk, hhook, List.any_cons, List.any_cons, List.any_cons, absent, calls_leaf rfl,
      reference, calls_leaf rfl] at hcalls
    exact List.any_eq_true.2 ⟨a, ha, by simpa using hcalls⟩

theorem silent_setterCall (v : Text) (arguments : List Node) :
    (setterCall v arguments).identifier? = none ∧ (setterCall v arguments).calleeHook? = none := by
  obtain ⟨value, s, hvalue, -⟩ := setterCall_cases v arguments
  rw [hvalue]
  exact ⟨rfl, rfl⟩

theorem hushes_assigned (setters : List (Text × Text)) (n : Node) :
    Hushes p n (n.assigned setters) := by
  induction n with
  | mk k s ps ih =>
    cases hv : (mk k s ps).sets? setters with
    | none =>
      rw [assigned_of_not_sets hv]
      exact .map ih
    | some v =>
      rw [assigned_of_sets hv]
      have hsilent := silent_setterCall v ((mk k s ps).arguments.map (assigned setters))
      refine .of_calls hsilent.1 hsilent.2 fun h => ?_
      obtain ⟨a', ha', h⟩ := List.any_eq_true.1 (calls_setterCall h)
      obtain ⟨a, ha, rfl⟩ := List.mem_map.1 ha'
      have ha := List.mem_of_mem_drop ha
      exact calls_of_mem ha ((ih a ha).calls h)

/-! ### Markup -/

theorem hushes_renameAttributes (n : Node) : Hushes p n n.renameAttributes := by
  induction n with
  | mk k s ps ih =>
    have hps : List.Forall₂ (Hushes p) ps (renameAttributesList ps) := by
      rw [renameAttributesList_eq]
      exact List.forall₂_map_right_iff.2 (List.forall₂_same.2 ih)
    cases k
    case «attribute» space name =>
      cases space with
      | none =>
        refine .of_calls rfl rfl fun h => ?_
        rw [calls_of_kind rfl]
        exact Hushes.any_calls hps ((calls_of_kind rfl _ _).symm.trans h)
      | some space => exact .parts hps
    all_goals exact .parts hps

/-- The name of a block is neither a hook nor the framework. -/
theorem hushes_placeholderNode (n : Node) (i : Nat) : Hushes p n (Block.placeholderNode i) where
  calls h := by cases h
  framework h := by
    have hhead := congrArg List.head? (Option.some.inj h)
    cases hhead
  callee x hx := by
    cases (Hook.ofName?_placeholder i).symm.trans hx

section Blocks

variable {names : List Text}

theorem hushes_lowerLists (n : Node) (bs : List Block) : Hushes p n (n.lowerLists names bs).1 :=
  lowerLists_induction .parts (fun i _ => hushes_placeholderNode _ i) n bs

theorem hushes_lowerChoices (n : Node) (a : Bool) (bs : List Block) :
    Hushes p n (n.lowerChoices names a bs).1 :=
  lowerChoices_induction .parts (fun _ => .of_calls rfl rfl fun h => by cases h) n a bs

end Blocks

section Substitution

variable {r : Text → Option Node}

/-- Filling holes with what calls no hook brings up no call. -/
theorem hushes_substitute (hr : ∀ x v, r x = some v → v.calls p = false) (n : Node) :
    Hushes p n (n.substitute r) := by
  have hole {s s' : Span} {e v : Node} {x : Text} (hx : r x = some v) :
      Hushes p (mk .container s [e]) (mk .container s' [v]) := by
    refine .of_calls rfl rfl fun h => ?_
    rw [calls_of_kind rfl, List.any_cons, hr x v hx] at h
    cases h
  refine substitute_induction .map hole (fun {s e x v} hx => ?_) n
  unfold inHole
  split
  · next hmarkup =>
    have hcalls := hr x v hx
    obtain ⟨k, sv, ps⟩ := v
    cases k
    case element | fragment =>
      refine .of_calls rfl rfl fun h => ?_
      rw [hcalls] at h
      cases h
    all_goals cases hmarkup
  · exact hole hx

end Substitution

/-! ### Memoizing hooks -/

/-- Whether a function that is called is a call of a memoizing hook, or a member of one. -/
def isMemoized : Node → Bool
  | mk (.member _ _) _ [o] => o.isMemo
  | n => n.isMemo

/-- Whether a tree calls what a memoizing hook gives. -/
def callsMemoized (n : Node) : Bool :=
  n.any fun m => m.kind.isExpressionCall && m.parts.head?.any isMemoized

theorem callsMemoized_mk (k : Kind) (s : Span) (ps : List Node) : (mk k s ps).callsMemoized =
    (k.isExpressionCall && ps.head?.any isMemoized || ps.any callsMemoized) := by
  rw [callsMemoized, any_mk, anyList_eq]
  rfl

/-- A function that is no memoized one is the same hook as before. -/
theorem calleeHook?_unmemo {n m : Node} (h : n.unmemo = .ok m) (hn : n.isMemoized = false) :
    m.calleeHook? = n.calleeHook? := by
  obtain ⟨k, s, ps⟩ := n
  have hmemo : (mk k s ps).isMemo = false := by
    cases k
    case call => exact hn
    all_goals rfl
  rcases unmemo_cases h with ⟨-, -, ms, hms, rfl⟩ | ⟨hmemo', -⟩
  · cases k
    case member link x =>
      obtain ⟨o, chained⟩ := link
      cases chained
      · rcases hms with _ | ⟨ho, _ | _⟩
        case cons.nil =>
          rw [kind_mk, span_mk, calleeHook?, calleeHook?, calleeName?_member, calleeName?_member,
            identifier?_congr (kind_of_unmemo ho hn)]
        all_goals simp [calleeHook?, calleeName?]
      · rfl
    all_goals rfl
  · rw [hmemo] at hmemo'
    cases hmemo'

theorem lasts_of_not_isMemo {n : Node} {h : Hook} (hn : n.isMemo = false)
    (hreducer : n.expressionHook? ≠ some .reducer) (hh : n.expressionHook? = some h) :
    h.lasts = true := by
  rw [isMemo, hh] at hn
  cases h
  case reducer => exact absurd hh hreducer
  all_goals first | rfl | cases hn

/-- When memoizing hooks are taken apart, calls of the hooks that last are left, where
    they were before; unless what a memoizing hook gives is called. -/
theorem calls_unmemo {n m : Node} (h : n.unmemo = .ok m) (hn : n.callsMemoized = false)
    (hm : m.calls p = true) : n.calls (fun h => p h && h.lasts) = true := by
  refine unmemo_induction (motive := fun n m => n.callsMemoized = false → m.calls p = true →
    n.calls (fun h => p h && h.lasts) = true) ?_ ?_ ?_ h hn hm
  · intro k s ps ms hmemo hreducer hparts hn hm
    rw [callsMemoized_mk, Bool.or_eq_false_iff] at hn
    obtain ⟨hcallee, hrest⟩ := hn
    rw [calls_mk, Bool.or_eq_true] at hm ⊢
    refine hm.imp (fun hm => ?_) fun hm => ?_
    · -- The function that is called is the same hook as before.
      have hsame : (mk k s ms).expressionHook? = (mk k s ps).expressionHook? := by
        rw [expressionHook?_mk, expressionHook?_mk]
        cases hk : k.isExpressionCall
        · rfl
        · rw [hk, Bool.true_and] at hcallee
          cases hparts with
          | nil => rfl
          | cons hfirst _ => exact calleeHook?_unmemo hfirst.1 hcallee
      rw [hsame] at hm
      cases hh : (mk k s ps).expressionHook? with
      | none =>
        rw [hh] at hm
        cases hm
      | some x =>
        rw [hh] at hm
        have hm : p x = true := hm
        show (p x && x.lasts) = true
        rw [hm, lasts_of_not_isMemo hmemo hreducer hh]
        rfl
    · obtain ⟨m, hm, hcalls⟩ := List.any_eq_true.1 hm
      obtain ⟨n, hn, -, ih⟩ := exists_of_forall₂ hparts hm
      have hquiet := Bool.eq_false_iff.2 (List.any_eq_false.1 hrest n hn)
      exact List.any_eq_true.2 ⟨n, hn, ih hquiet hcalls⟩
  · intro n _ _ hm
    cases hm
  · intro n e m _ he ih hn hm
    obtain ⟨i, path, hat⟩ := he.at?
    refine any_of_at? hat (ih (Bool.eq_false_iff.2 fun h => ?_) hm)
    rw [callsMemoized, any_of_at? hat h] at hn
    cases hn

end Node

/-! ### Effects -/

namespace Effect

open Node

/-- A test that only calls in expression position pass, and calls that register functions
    do not. -/
structure CallTest (q : Node → Bool) : Prop where
  call : ∀ k s ps, q (.mk k s ps) = true → k.isExpressionCall = true
  register : ∀ m f, q (Node.calling (.reference (Lifecycle.name m) f.span) [f] f.span) = false

theorem callTest_calls (p : Hook → Bool) : CallTest fun m => m.expressionHook?.any p where
  call k s ps h := by
    rw [expressionHook?_mk] at h
    split at h
    · assumption
    · cases h
  register m f := by cases m <;> rfl

theorem callTest_callsMemoized :
    CallTest fun m => m.kind.isExpressionCall && m.parts.head?.any isMemoized where
  call k s ps h := (Bool.and_eq_true_iff.1 h).1
  register m f := by cases m <;> rfl

variable {q : Node → Bool}

theorem CallTest.any_mk (hq : CallTest q) {k : Kind} (hk : k.isExpressionCall = false) (s : Span)
    (ps : List Node) : (Node.mk k s ps).any q = ps.any (Node.any q) := by
  have hself : q (.mk k s ps) = false := Bool.eq_false_iff.2 fun h => by
    rw [hq.call k s ps h] at hk
    cases hk
  rw [Node.any_mk, anyList_eq, hself]
  rfl

theorem any_body (hq : CallTest q) {f : Node} (h : f.body.any q = true) : f.any q = true := by
  unfold body at h
  split at h
  · exact any_of_mem (by simp) h
  · exact any_of_mem (by simp) h
  · rw [Node.absent, hq.any_mk rfl] at h
    cases h

theorem any_withBody (hq : CallTest q) {f b : Node} (h : (withBody b f).any q = true)
    (hb : b.any q = true → f.any q = true) : f.any q = true := by
  unfold withBody at h
  split at h
  · rw [hq.any_mk rfl] at h
    simp only [List.any_cons, List.any_nil, Bool.or_eq_true, Bool.or_false] at h
    rcases h with h | h | h | h
    · exact any_of_mem (by simp) h
    · exact any_of_mem (by simp) h
    · exact any_of_mem (by simp) h
    · exact hb h
  · rw [hq.any_mk rfl] at h
    simp only [List.any_cons, List.any_nil, Bool.or_eq_true, Bool.or_false] at h
    rcases h with h | h | h | h | h
    · exact any_of_mem (by simp) h
    · exact any_of_mem (by simp) h
    · exact any_of_mem (by simp) h
    · exact any_of_mem (by simp) h
    · exact hb h
  · exact h

/-- What is taken from the function of an effect has no calls that the function has
    not. -/
theorem any_takenFrom (hq : CallTest q) {f g : Node} (h : TakenFrom f g) (hg : g.any q = true) :
    f.any q = true := by
  cases h with
  | whole => exact hg
  | left hbody hsub =>
    refine any_withBody hq hg fun hb => any_body hq ?_
    rw [hq.any_mk rfl] at hb
    obtain ⟨a, ha, h⟩ := List.any_eq_true.1 hb
    rw [hbody]
    exact any_of_mem (hsub.subset ha) h
  | concise => exact any_body hq hg
  | returned hbody hr =>
    refine any_body hq ?_
    rw [hbody]
    exact any_of_mem hr (any_of_mem List.mem_cons_self hg)

/-- The functions that are registered for an effect have no calls that it has not. -/
theorem any_registrations (hq : CallTest q) {hook : Hook} {call : Node} {e : Effect}
    (h : ofCall hook call = .ok e) {r : Lifecycle × Node} (hr : r ∈ e.registrations)
    (hany : r.2.any q = true) : call.any q = true := by
  obtain ⟨f, hf, htaken⟩ := takenFrom_of_mem_registrations h hr
  exact any_of_mem (mem_of_firstArgument? hf) (any_takenFrom hq htaken hany)

theorem any_register (hq : CallTest q) {m : Lifecycle} {f : Node}
    (h : (register m f).any q = true) : f.any q = true := by
  have hregister := hq.register m f
  rw [register, Node.asStatement, hq.any_mk rfl, List.any_cons, List.any_nil, Bool.or_false] at h
  rw [Node.calling] at h hregister
  rw [Node.any_mk, anyList_eq, hregister, Node.absent, Node.reference] at h
  simpa only [List.any_cons, List.any_nil, hq.any_mk (k := .absent) rfl,
    hq.any_mk (k := .identifier _) rfl, Bool.false_or, Bool.or_false] using h

/-- Effects become statements without calls that they had not. -/
theorem any_lower (hq : CallTest q) {ss ss' : List Node} {ms : List Lifecycle}
    (h : lower ss = .ok (ss', ms)) (hany : ss'.any (Node.any q) = true) :
    ss.any (Node.any q) = true := by
  induction ss generalizing ss' ms with
  | nil =>
    cases h
    exact hany
  | cons s ss ih =>
    rw [List.any_cons, Bool.or_eq_true]
    unfold lower at h
    split at h
    · obtain ⟨⟨rest, ms'⟩, hlower, h⟩ := of_bind_eq_ok h
      cases h
      rw [List.any_cons, Bool.or_eq_true] at hany
      exact hany.imp_right (ih hlower)
    · next hook call hcall =>
      obtain ⟨e, he, h⟩ := of_bind_eq_ok h
      obtain ⟨⟨rest, ms'⟩, hlower, h⟩ := of_bind_eq_ok h
      cases h
      obtain ⟨sp, rfl, -, -⟩ := ofStatement?_eq_some hcall
      rw [List.any_append, Bool.or_eq_true] at hany
      refine hany.imp (fun hany => ?_) (ih hlower)
      obtain ⟨t, ht, hany⟩ := List.any_eq_true.1 hany
      obtain ⟨r, hr, rfl⟩ := List.mem_map.1 ht
      exact any_of_mem List.mem_cons_self (any_registrations hq he hr (any_register hq hany))

end Effect

/-! ### State -/

namespace Node

/-- A tree that calls one of some hooks calls some one of them. -/
theorem exists_of_calls {n : Node} (h : n.calls p = true) :
    ∃ x, p x = true ∧ n.calls (fun h => h = x) = true := by
  induction n with
  | mk k s ps ih =>
    rw [calls_mk, Bool.or_eq_true] at h
    rcases h with h | h
    · cases hx : (mk k s ps).expressionHook? with
      | none =>
        rw [hx] at h
        cases h
      | some x =>
        rw [hx] at h
        refine ⟨x, h, ?_⟩
        rw [calls_mk, hx]
        simp
    · obtain ⟨m, hm, h⟩ := List.any_eq_true.1 h
      obtain ⟨x, hx, h⟩ := ih m hm h
      exact ⟨x, hx, calls_of_mem hm h⟩

/-- Where no call is found, none is made. -/
theorem calls_of_find? {f : Node → Bool} (hf : ∀ n h, n.hook? = some h → p h = true → f n = true)
    {n : Node} (hn : n.find? f = none) : n.calls p = false := by
  induction n with
  | mk k s ps ih =>
    obtain ⟨hself, hparts⟩ := find?_eq_none.1 hn
    rw [calls_mk, Bool.or_eq_false_iff]
    refine ⟨?_, List.any_eq_false.2 fun m hm => Bool.eq_false_iff.1 (ih m hm (hparts m hm))⟩
    cases hx : (mk k s ps).expressionHook? with
    | none => rfl
    | some x =>
      refine Bool.eq_false_iff.2 fun hp => ?_
      rw [hf _ x (hook?_of_expressionHook? hx) hp] at hself
      cases hself

/-- Whether a tree calls for state. -/
def callsState (n : Node) : Bool := n.calls fun h => h = .state

end Node

/-- Whether the target of an assignment calls for state only if the pattern does. -/
def targetsState (p : Node) : Node → Bool
  | .mk .expressionStatement _ [.mk (.assign none) _ [t, _]] => p.callsState || !t.callsState
  | _ => true

/-- Whether reading a pattern as a target brings up no call for state. -/
def keepsState (typescript : Bool) (p : Node) : Bool :=
  Template.passes (targetsState p) (Template.read typescript (assignmentTemplate p))

namespace Component

open Node

theorem reactiveTest_calls : ReactiveTest fun m => m.expressionHook?.any p where
  labeled _ _ := rfl
  statement _ _ := rfl
  assign _ _ := rfl

theorem keepsState_eq (typescript : Bool) (q : Node) : keepsState typescript q =
    keepsOut (fun m => m.expressionHook?.any fun h => h = .state) typescript q := by
  have htest : targetsState q = targetHas (fun m => m.expressionHook?.any fun h => h = .state) q := by
    funext t
    unfold targetsState
    split
    · rfl
    · next hshape =>
      rw [targetHas]
      exact hshape
  rw [keepsState, keepsOut, htest]

/-- No call for state is left when state has been extracted. -/
theorem callsState_extractState {typescript : Bool} {b d : Component} (hsetters : b.setters = [])
    (hd : b.extractState typescript = .ok d)
    (hholes : ∀ s ∈ b.body, s.hasHole = false)
    (htargets : ∀ s ∈ b.body, ∀ q init, (s.assigned d.setters).declared? = some (q, init) →
      readsTarget typescript q = true ∧ keepsState typescript q = true) :
    ∀ t ∈ d.body, t.callsState = false := by
  obtain ⟨c, -, -, hc, hfind, -⟩ := extractState_eq_ok hd
  refine any_extractState reactiveTest_calls (fun setters n hn => ?_) hsetters hd hc
    (fun s hs => ?_) hholes fun s hs q init hq => ?_
  · exact Bool.eq_false_iff.2 fun h =>
      Bool.eq_false_iff.1 hn ((hushes_assigned setters n).calls h)
  · exact calls_of_find? (fun n h hn hh => by simp_all) (findList?_eq_none.1 hfind s hs)
  · rw [← keepsState_eq]
    exact htargets s hs q init hq

end Component

/-! ### Markup variables -/

namespace MarkupTable

open Node

theorem calls_of_mem_ofStatement {s v : Node} {x : Text} (h : (x, v) ∈ ofStatement s)
    (hv : v.calls p = true) : s.calls p = true := by
  obtain ⟨-, k, sp, ds, k', sp', ps, hu, -, hd, -, hmem⟩ := of_mem_ofStatement h
  have hunlabeled : s.unlabeled.calls p = true := by
    rw [hu]
    exact calls_of_mem hd (calls_of_mem hmem hv)
  unfold unlabeled at hunlabeled
  split at hunlabeled
  · exact calls_of_mem List.mem_cons_self hunlabeled
  · exact hunlabeled

theorem calls_resolveWithin {t : MarkupTable} (ht : ∀ x v, (x, v) ∈ t → v.calls p = false)
    {fuel : Nat} {active : List Text} {x : Text} {v : Node}
    (h : t.resolveWithin fuel active x = some v) : v.calls p = false := by
  refine resolveWithin_induction (fun _ _ x u hu ih => Bool.eq_false_iff.2 fun hcalls => ?_) h
  have hquiet := ht x u (mem_of_value? hu)
  rw [(hushes_substitute ih u).calls hcalls] at hquiet
  cases hquiet

theorem calls_withoutMarkup {s s' : Node} (h : withoutMarkup s = some s')
    (hs' : s'.calls p = true) : s.calls p = true := by
  have hkept (k : VarKind) (d : Bool) (sp : Span) (ds : List Node) (f : Node → Bool)
      (h : (mk (.declaration k d) sp (ds.filter f)).calls p = true) :
      (mk (.declaration k d) sp ds).calls p = true := by
    rw [calls_of_kind rfl] at h
    obtain ⟨m, hm, h⟩ := List.any_eq_true.1 h
    exact calls_of_mem (List.mem_filter.1 hm).1 h
  unfold withoutMarkup at h
  dsimp only at h
  split at h
  · cases h
    exact hs'
  · split at h
    · split at h
      · cases h
      · cases h
        exact hkept _ _ _ _ _ hs'
    · split at h
      · cases h
      · cases h
        rw [calls_of_kind rfl, List.any_cons, List.any_nil, Bool.or_false] at hs'
        exact calls_of_mem List.mem_cons_self (hkept _ _ _ _ _ hs')
    · cases h

end MarkupTable

namespace Component

open Node

variable {c : Component}

theorem calls_markupTable (hc : ∀ s ∈ c.module ++ c.body, s.calls p = false) {x : Text} {v : Node}
    (hv : (x, v) ∈ c.markupTable) : v.calls p = false := by
  refine Bool.eq_false_iff.2 fun hcalls => ?_
  have hstatement {ss : List Node} (hss : ss ⊆ c.module ++ c.body)
      (hv : (x, v) ∈ MarkupTable.ofStatements ss) : False := by
    obtain ⟨s, hs, hv⟩ := List.mem_flatMap.1 hv
    have hquiet := hc s (hss hs)
    rw [MarkupTable.calls_of_mem_ofStatement hv hcalls] at hquiet
    cases hquiet
  rcases List.mem_append.1 hv with hv | hv
  · exact hstatement (List.subset_append_left _ _) hv
  · exact hstatement (List.Subset.trans (List.dropLast_subset _) (List.subset_append_right _ _)) hv

theorem calls_fillLast {t : MarkupTable} (ht : ∀ x v, t.resolve x = some v → v.calls p = false)
    {ss : List Node} (hss : ∀ s ∈ ss, s.calls p = false) : ∀ s ∈ fillLast t ss, s.calls p = false := by
  have hreturn (s : Node) (hs : s.calls p = false) : (fillReturn t s).calls p = false := by
    unfold fillReturn
    split
    · next sp e =>
      rw [calls_of_kind rfl, List.any_cons, List.any_nil, Bool.or_false]
      cases hv : e.identifier?.bind t.resolve with
      | none =>
        rw [calls_of_kind rfl, List.any_cons, List.any_nil, Bool.or_false] at hs
        exact hs
      | some v =>
        obtain ⟨x, -, hx⟩ := Option.bind_eq_some_iff.1 hv
        exact ht x v hx
    · exact hs
  intro s hs
  rcases List.eq_nil_or_concat ss with rfl | ⟨init, r, rfl⟩
  · cases hs
  · rw [List.concat_eq_append] at hs hss
    rw [fillLast_concat, List.mem_append, List.mem_singleton] at hs
    rcases hs with hs | rfl
    · exact hss s (List.mem_append_left _ hs)
    · exact hreturn r (hss r (by simp))

/-- Showing markup variables brings up no call of a hook. -/
theorem calls_inlineMarkup (hc : ∀ s ∈ c.module ++ c.body, s.calls p = false) :
    (∀ x v, c.markupTable.resolve x = some v → v.calls p = false) ∧
      ∀ s ∈ c.inlineMarkup.module ++ c.inlineMarkup.body, s.calls p = false := by
  have hresolve (x : Text) (v : Node) (hv : c.markupTable.resolve x = some v) :
      v.calls p = false := MarkupTable.calls_resolveWithin (fun x v => calls_markupTable hc) hv
  have hfilled {ss : List Node} (hss : ∀ s ∈ ss, s.calls p = false) {s : Node}
      (hs : s ∈ (substituteList c.markupTable.resolve ss).filterMap MarkupTable.withoutMarkup) :
      s.calls p = false := by
    rw [substituteList_eq, List.filterMap_map] at hs
    obtain ⟨t, ht, hs⟩ := List.mem_filterMap.1 hs
    refine Bool.eq_false_iff.2 fun hcalls => Bool.eq_false_iff.1 (hss t ht) ?_
    exact (hushes_substitute hresolve t).calls (MarkupTable.calls_withoutMarkup hs hcalls)
  obtain ⟨hmodule, hbody⟩ := List.forall_mem_append.1 hc
  refine ⟨hresolve, List.forall_mem_append.2 ⟨fun s => hfilled hmodule, fun s => ?_⟩⟩
  exact hfilled (calls_fillLast hresolve hbody)

/-! ### All steps -/

/-- Lowering markup brings up no call of a hook. -/
theorem calls_lowerMarkup (c : Component) :
    ((∀ s ∈ c.module, s.calls p = false) → ∀ s ∈ c.lowerMarkup.module, s.calls p = false) ∧
      ((∀ s ∈ c.body, s.calls p = false) → ∀ s ∈ c.lowerMarkup.body, s.calls p = false) := by
  have hstep {ss ts : List Node} (h : List.Forall₂ (Hushes p) ss ts)
      (hss : ∀ s ∈ ss, s.calls p = false) : ∀ t ∈ ts, t.calls p = false := by
    intro t ht
    obtain ⟨s, hs, hst⟩ := exists_of_forall₂ h ht
    exact Bool.eq_false_iff.2 fun h => Bool.eq_false_iff.1 (hss s hs) (hst.calls h)
  obtain ⟨hmodule, hbody⟩ := forall₂_lowerMarkup (R := Hushes p) Hushes.trans
    hushes_renameAttributes (fun _ => hushes_lowerLists) (fun _ n => hushes_lowerChoices n false) c
  exact ⟨hstep hmodule, hstep hbody⟩

/-- What is left when hooks are taken apart. -/
theorem calls_hooks {d e f : Component} (he : d.lowerEffects = .ok e) (hf : e.unmemo = .ok f)
    (hcallees : ∀ s ∈ d.module ++ d.body, s.callsMemoized = false)
    (hmodule : ∀ s ∈ d.module, s.calls (fun h => p h && h.lasts) = false)
    (hstate : p .state = true → ∀ s ∈ d.body, s.callsState = false) :
    ∀ s ∈ f.module ++ f.body, s.calls p = false := by
  obtain ⟨hcalleesModule, hcalleesBody⟩ := List.forall_mem_append.1 hcallees
  obtain ⟨body, ms, lifecycle, hlower, hfind, rfl⟩ := lowerEffects_eq_ok he
  obtain ⟨module', body', hmodule', hbody', rfl⟩ := unmemo_eq_ok hf
  have hlowered {q : Node → Bool} (hq : Effect.CallTest q) (h : ∀ s ∈ d.body, s.any q = false) :
      ∀ s ∈ body, s.any q = false := fun s hs => Bool.eq_false_iff.2 fun hany => by
    obtain ⟨t, ht, hany⟩ := List.any_eq_true.1
      (Effect.any_lower hq hlower (List.any_eq_true.2 ⟨s, hs, hany⟩))
    rw [h t ht] at hany
    cases hany
  have hunmemo {ns ms : List Node} (h : unmemoList ns = .ok ms)
      (hcallees : ∀ n ∈ ns, n.callsMemoized = false)
      (hns : ∀ n ∈ ns, n.calls (fun h => p h && h.lasts) = false) :
      ∀ m ∈ ms, m.calls p = false := fun m hm => Bool.eq_false_iff.2 fun hcalls => by
    obtain ⟨n, hn, hnm⟩ := exists_of_forall₂ (forall₂_of_unmemoList h) hm
    have hquiet := hns n hn
    rw [calls_unmemo hnm (hcallees n hn) hcalls] at hquiet
    cases hquiet
  refine List.forall_mem_append.2 ⟨hunmemo hmodule' hcalleesModule hmodule,
    hunmemo hbody' (hlowered Effect.callTest_callsMemoized hcalleesBody) fun s hs => ?_⟩
  -- Of the hooks that last, effects are looked for in the body, and state is gone.
  refine Bool.eq_false_iff.2 fun hcalls => ?_
  obtain ⟨x, hx, hcalls⟩ := exists_of_calls hcalls
  obtain ⟨hp, hlasts⟩ := Bool.and_eq_true_iff.1 hx
  have heffect (hx : x.isEffect = true) : False := by
    have hnone : s.calls (fun h => h = x) = false :=
      calls_of_find? (fun n h hn hh => by rw [isEffectCall, hn, of_decide_eq_true hh]; exact hx)
        (findList?_eq_none.1 hfind s hs)
    rw [hcalls] at hnone
    cases hnone
  cases x
  case state =>
    have hnone := hlowered (Effect.callTest_calls fun h => h = .state) (hstate hp) s hs
    rw [calls, hnone] at hcalls
    cases hcalls
  case effect | layoutEffect => exact heffect rfl
  all_goals cases hlasts

end Component

/-! ### The document -/

namespace Component

open Node

/-- What a component returns calls no more than its statements do. -/
theorem calls_returned? {c : Component} {e : Node} (h : c.returned? = some e)
    (hc : ∀ s ∈ c.body, s.calls p = false) : e.calls p = false := by
  obtain ⟨s, hs, he⟩ := Option.bind_eq_some_iff.1 h
  obtain ⟨sp, rfl⟩ := returnValue?_eq_some he
  refine Bool.eq_false_iff.2 fun hcalls => ?_
  exact Bool.eq_false_iff.1 (hc _ (List.mem_of_getLast? hs))
    (calls_of_mem List.mem_cons_self hcalls)

/-- The components that a source passes through once state has been extracted. -/
theorem compileThrough_of_state {options : Options} {source : Text} {b d c : Component}
    (hb : compileThrough options [.props] source = .ok b)
    (hd : b.extractState options.typescript = .ok d)
    (hc : compileThrough options Pass.all source = .ok c) :
    ∃ f, compileThrough options [.props, .state, .placement] source = .ok d ∧
      compileThrough options [.props, .state, .placement, .lowering, .hooks] source = .ok f ∧
      ∃ e, d.lowerMarkup.lowerEffects = .ok e ∧ e.unmemo = .ok f ∧ c = f.inlineMarkup := by
  have hc := (compileThrough_from hb [.state, .placement, .lowering, .hooks, .inlining]).symm.trans hc
  obtain ⟨d', hd', hc⟩ := of_bind_eq_ok (x := b.extractState options.typescript) hc
  cases hd.symm.trans hd'
  obtain ⟨d', hplaced, hc⟩ := of_bind_eq_ok (x := d.checkPlacement) hc
  have hsame := checkPlacement_eq_ok hplaced
  rw [hsame] at hplaced hc
  obtain ⟨f, hf, hc⟩ := of_bind_eq_ok (x := do (← d.lowerMarkup.lowerEffects).unmemo) hc
  cases hc
  obtain ⟨e, he, hf⟩ := of_bind_eq_ok hf
  refine ⟨f, ?_, ?_, e, he, hf, rfl⟩
  · refine (compileThrough_from hb [.state, .placement]).trans ?_
    simp [Pass.run, hd, hplaced, bind, Except.bind, pure, Except.pure]
  · refine (compileThrough_from hb [.state, .placement, .lowering, .hooks]).trans ?_
    simp [Pass.run, hd, hplaced, he, hf, bind, Except.bind, pure, Except.pure]

/-- Where calls of hooks are left. Hypotheses: if state counts among the hooks, that the
    source does not use the names of holes and that patterns are read as the targets that
    they are; that what a memoizing hook gives is not called at once; and that the module
    calls, outside the component, no hook that lasts. Then

    * no statement of the compiled component or its module has such a call, and the items of
      the script are written from these statements, from props and from setters, so that
      only the default of a prop can have one, which is written as it stands in the
      parameter;
    * the markup is the text of what the compiled component returns, without such calls, in
      which its blocks are put, and so is what has been put in the holes of the blocks;
    * but a block is written with such a call exactly if a list or a choice of the
      component or its module has one. -/
theorem hooks_left {options : Options} {source : Text} {b d c : Component} {doc : Document}
    (hb : compileThrough options [.props] source = .ok b)
    (hd : b.extractState options.typescript = .ok d)
    (hc : compileThrough options Pass.all source = .ok c) (hdoc : c.document options = .ok doc)
    (hstate : p .state = true → ∀ s ∈ b.body, s.hasHole = false ∧
      ∀ q init, (s.assigned d.setters).declared? = some (q, init) →
        readsTarget options.typescript q = true ∧ keepsState options.typescript q = true)
    (hcallees : ∀ s ∈ d.lowerMarkup.module ++ d.lowerMarkup.body, s.callsMemoized = false)
    (hmodule : ∀ s ∈ d.module, s.calls (fun h => p h && h.lasts) = false) :
    (∀ s ∈ c.module ++ c.body, s.calls p = false) ∧
      List.Forall₂ (Document.Origin.Writes options) c.origins.flatten doc.script ∧
      (∀ g ∈ c.fields, ∀ text, g.default = some text →
        ∃ e ∈ d.propDefaults, text = e.printExpression) ∧
      (∃ e, c.returned? = some e ∧ e.calls p = false ∧
        doc.markup = Document.stripFragments (Block.expand c.blocks e.printExpression)) ∧
      (∃ f, compileThrough options [.props, .state, .placement, .lowering, .hooks] source = .ok f ∧
        c.blocks = (d.shapes.map Shape.block).map f.markupTable.fillBlock ∧
        ∀ x v, f.markupTable.resolve x = some v → v.calls p = false) ∧
      d.shapes.any (Shape.calls p) = d.freezesHook p := by
  obtain ⟨f, hplaced, hhooked, e, he, hf, rfl⟩ := compileThrough_of_state hb hd hc
  obtain ⟨-, hfields, hblocks⟩ := hooked_eq_ok hplaced hhooked
  have hd' (hp : p .state = true) : ∀ s ∈ d.body, s.callsState = false :=
    callsState_extractState (props_fresh hb).1 hd (fun s hs => (hstate hp s hs).1)
      fun s hs => (hstate hp s hs).2
  have hquiet := calls_hooks he hf hcallees ((calls_lowerMarkup d).1 hmodule)
    fun hp => (calls_lowerMarkup d).2 (hd' hp)
  obtain ⟨hresolve, hinlined⟩ := calls_inlineMarkup hquiet
  obtain ⟨script, markup, hscript, hmarkup, rfl⟩ := document_eq_ok hdoc
  obtain ⟨r, hr, hmarkup⟩ := markup_eq_ok hmarkup
  refine ⟨hinlined, writes_script hscript, fun g hg => ?_, ⟨r, hr, ?_, hmarkup⟩,
    ⟨f, hhooked, congrArg (List.map f.markupTable.fillBlock) hblocks, hresolve⟩, shapes_calls p d⟩
  · exact (placed_eq_ok hplaced).2 g (hfields ▸ hg)
  · exact calls_returned? hr (List.forall_mem_append.1 hinlined).2

/-- A component with state, an effect and a memoized value. -/
def steppingSource : Text :=
  "export default (\x7b a \x7d) => \x7b
    const [n, setN] = useState(0);
    const m = useMemo(() => n, [n]);
    useEffect(() => setN(a));
    return <p>\x7bm\x7d</p>;
  \x7d;"

theorem stepping_hooks_left : ∃ b d c doc e, compileThrough {} [.props] steppingSource = .ok b ∧
    b.extractState false = .ok d ∧ compileThrough {} Pass.all steppingSource = .ok c ∧
    c.document {} = .ok doc ∧
    (∀ s ∈ b.body, s.hasHole = false ∧
      ∀ q init, (s.assigned d.setters).declared? = some (q, init) →
        readsTarget false q = true ∧ keepsState false q = true) ∧
    (∀ s ∈ d.lowerMarkup.module ++ d.lowerMarkup.body, s.callsMemoized = false) ∧
    (∀ s ∈ d.module, s.calls Hook.lasts = false) ∧
    d.propDefaults = [] ∧ d.freezesHook (fun _ => true) = false ∧
    (∀ s ∈ c.module ++ c.body, s.calls (fun _ => true) = false) ∧
    List.Forall₂ (Document.Origin.Writes {}) c.origins.flatten doc.script ∧
    c.returned? = some e ∧ e.calls (fun _ => true) = false ∧
    doc.markup = Document.stripFragments (Block.expand c.blocks e.printExpression) ∧
    d.shapes.any (Shape.calls fun _ => true) = false := by
  have hsource : ((compileThrough {} [.props] steppingSource).toOption.bind fun b =>
      (b.extractState false).toOption.bind fun d =>
      (compileThrough {} Pass.all steppingSource).toOption.bind fun c =>
      (c.document {}).toOption.map fun _ =>
        (d.propDefaults.length, d.freezesHook fun _ => true,
          (b.body.all fun s => !s.hasHole && (s.assigned d.setters).declared?.all fun q =>
            readsTarget false q.1 && keepsState false q.1) &&
          ((d.lowerMarkup.module ++ d.lowerMarkup.body).all fun s => !s.callsMemoized) &&
          d.module.all fun s => !s.calls Hook.lasts)) = some (0, false, true) := by
    rw [(by apply String.toList_ofList : steppingSource = _)]
    decide +kernel
  obtain ⟨b, hb, hsource⟩ := of_toOption_bind hsource
  obtain ⟨d, hd, hsource⟩ := of_toOption_bind hsource
  obtain ⟨c, hc, hsource⟩ := of_toOption_bind hsource
  obtain ⟨doc, hdoc, hsource⟩ := of_toOption_map hsource
  simp only [Prod.mk.injEq, Bool.and_eq_true, List.all_eq_true, Bool.not_eq_true',
    List.length_eq_zero_iff] at hsource
  obtain ⟨hdefaults, hfrozen, ⟨hread, hcallees⟩, hmodule⟩ := hsource
  have hstate : ∀ s ∈ b.body, s.hasHole = false ∧
      ∀ q init, (s.assigned d.setters).declared? = some (q, init) →
        readsTarget false q = true ∧ keepsState false q = true := by
    refine fun s hs => ⟨(hread s hs).1, fun q init hq => ?_⟩
    have htarget := (hread s hs).2
    rw [hq] at htarget
    exact Bool.and_eq_true_iff.1 htarget
  obtain ⟨hquiet, hscript, -, ⟨e, he, hcalls, hmarkup⟩, -, hshapes⟩ :=
    hooks_left (p := fun _ => true) hb hd hc hdoc (fun _ => hstate) hcallees hmodule
  exact ⟨b, d, c, doc, e, hb, hd, hc, hdoc, hstate, hcallees, hmodule, hdefaults, hfrozen, hquiet,
    hscript, he, hcalls, hmarkup, hshapes.trans hfrozen⟩

/-- Calls of hooks are left in a list, in the default of a prop, and where what a
    memoizing hook gives is called. -/
theorem hooks_in_output :
    (compile? {} "export default (\x7b xs \x7d) =>
        <ul>\x7bxs.map(x => <li>\x7buseMemo(() => x, [x])\x7d</li>)\x7d</ul>;"
      ).toOption.map Document.markup =
        some "<ul>\x7b#each xs as x\x7d<li>\x7buseMemo(() => x, [x])\x7d</li>\x7b/each\x7d</ul>" ∧
    (compile? {} "export default (\x7b a = useMemo(() => 1, []) \x7d) => <p />;"
      ).toOption.map Document.script = some [("export let a = useMemo(() => 1, []);" : Text)] ∧
    (compile? {} "export default () => \x7b useCallback(useEffect)(f); return <p />; \x7d;"
      ).toOption.map Document.script = some [("useEffect(f);" : Text)] := by
  refine ⟨?_, ?_, ?_⟩
  all_goals
    conv in compile? _ _ =>
      arg 2
      apply String.toList_ofList
    decide +kernel

end Component

end Unhook
