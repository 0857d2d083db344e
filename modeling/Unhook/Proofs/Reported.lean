import Unhook.Proofs.Filling
import Unhook.Proofs.Placement
import Unhook.Proofs.Provenance
import Unhook.Proofs.Registered

/-!
# What problems are reported at

Every step of compilation that can fail does so at a node that it has come to, and the node
is of a kind that the problem is one of. Nodes are looked at through a property that all
nodes of what a step is given have, so that it is known of the node of the problem too.

* `Problem.At`: a problem has the stretch of a node, and is one of nodes of its kind;
* `Node.Traced.exists_origin`: such a node comes from a node of origin;
* `exists_of_check_error`, `exists_of_lower_error`, `exists_of_unmemo_error`,
  `exists_of_extractState_error`, `exists_of_ofModule_error`: the nodes at which the steps
  fail.
-/

namespace Unhook

/-! ### Problems and nodes -/

/-- Whether a problem is one of nodes of some kind. -/
def Cause.concerns (c : Cause) (k : Kind) : Bool :=
  match c with
  | .noBody => k.isFunctional
  | .manyReturns => k = .returnStatement
  | .markupInLoop | .markupInBranch | .markupInFunction => k = .element || k = .fragment
  | .effectCallback _ | .effectPlacement | .reducer | .memoArgument =>
    match k with
    | .call _ _ => true
    | _ => false
  | .stateShape =>
    match k with
    | .call _ _ | .declaration _ _ | .declarator _ => true
    | _ => false
  | _ => true

/-- A problem shows at a node if it has its stretch and is one of such nodes. -/
structure Problem.At (p : Problem) (n : Node) : Prop where
  span : p.span = n.span
  concerns : p.cause.concerns n.kind = true

namespace Node

variable {origin : Node → Prop} {state : Text → Prop} {holes : Bool} {n m : Node} {p : Problem}

/-- A problem shows at a node of origin, if it is one of what is reported and the node is not
    the call of a function that a setter is given. -/
theorem Traced.exists_origin (h : Traced origin state holes m) (hp : p.At m)
    (hk : m.kind.isReported = true) (hcallee : ∀ l pure, m.kind = .call l pure →
      ∀ f, m.parts.head? = some f → f.isFunction = false) : ∃ n, origin n ∧ p.At n := by
  cases h with
  | absent | hole => cases hk
  | origin hn h => exact ⟨_, hn, hp.span.trans h.span, h.kind hk ▸ hp.concerns⟩
  | setter _ _ hk' =>
    rw [kind_mk, hk'] at hk
    cases hk
  | update _ _ hf =>
    rw [hcallee _ _ rfl _ rfl] at hf
    cases hf

/-- What is no cleanup is a node of origin too, or it takes the place of a call of a setter,
    unless it is a name. -/
theorem Traced.exists_origin_or (h : Traced origin state holes m) (hp : p.At m)
    (hcause : p.cause = .effectCleanup) (habsent : m.kind ≠ .absent) (hname : ∀ x, m.kind ≠ .identifier x) :
    (∃ n, origin n ∧ p.At n) ∨ ∃ v, state v ∧ p.span ∈ setterSpans v := by
  cases h with
  | absent => exact absurd rfl habsent
  | origin hn h => exact .inl ⟨_, hn, hp.span.trans h.span, by rw [hcause]; rfl⟩
  | setter hv hs | update hv hs => exact .inr ⟨_, hv, hp.span ▸ hs⟩
  | hole => exact absurd rfl (hname _)

/-- Hooks are called by their names. -/
theorem callee_of_hook? {h : Hook} (hm : m.hook? = some h) {f : Node}
    (hf : m.parts.head? = some f) : f.isFunction = false := by
  unfold hook? at hm
  split at hm
  · next callee _ =>
    cases hf
    obtain ⟨x, hx, -⟩ := Option.bind_eq_some_iff.1 hm
    unfold calleeName? at hx
    split at hx
    · rfl
    · rfl
    · cases hx
  · cases hm

/-- A problem of calls shows at a node of origin, if it shows at a call of a hook. -/
theorem Traced.exists_origin_of_hook? (h : Traced origin state holes m) {k : Hook}
    (hm : m.hook? = some k) (hp : p.At m) : ∃ n, origin n ∧ p.At n := by
  obtain ⟨l, pure, hk⟩ := kind_of_hook? hm
  exact h.exists_origin hp (by rw [hk]; rfl) fun _ _ _ _ => callee_of_hook? hm

end Node

/-! ### What fails -/

/-- Where a sequence of two computations fails, one of them does. -/
theorem of_bind_eq_error {ε α β : Type} {x : Except ε α} {f : α → Except ε β} {e : ε}
    (h : (x >>= f) = .error e) : x = .error e ∨ ∃ a, x = .ok a ∧ f a = .error e := by
  cases x with
  | error e' =>
    cases h
    exact .inl rfl
  | ok a => exact .inr ⟨a, rfl, h⟩

variable {P : Node → Prop}

namespace Placement

variable {a : Surroundings} {seen : Seen} {p : Problem}

theorem concerns_of_cause? {c : Cause} (h : a.cause? = some c) {n : Node}
    (hn : n.isMarkup = true) : c.concerns n.kind = true := by
  have hmarkup : (n.kind = .element || n.kind = .fragment : Bool) = true := by
    obtain ⟨k, s, ps⟩ := n
    cases k
    case element | fragment => rfl
    all_goals cases hn
  unfold Surroundings.cause? at h
  split at h
  · cases h
    exact hmarkup
  · split at h
    · cases h
      exact hmarkup
    · split at h
      · cases h
        exact hmarkup
      · cases h

theorem mem_of_checkParts_error {f : Nat → Surroundings} {ns : List Node}
    (h : checkParts f ns seen = .error p) : ∃ n ∈ ns, ∃ a seen', check a n seen' = .error p := by
  induction ns generalizing f seen with
  | nil => cases h
  | cons n ns ih =>
    rcases of_bind_eq_error h with h | ⟨seen', -, h⟩
    · exact ⟨n, List.mem_cons_self, f 0, seen, h⟩
    · obtain ⟨m, hm, h⟩ := ih h
      exact ⟨m, List.mem_cons_of_mem _ hm, h⟩

/-- Misplaced markup is reported at its node. -/
theorem exists_of_check_error {n : Node}
    (hn : n.All P) (h : check a n seen = .error p) : ∃ m, P m ∧ m.isMarkup = true ∧ p.At m := by
  induction n generalizing a seen with
  | mk k s ps ih =>
    rw [check_eq] at h
    split at h
    · next c hc =>
      cases h
      split at hc
      · next hmarkup => exact ⟨_, hn.self, hmarkup, rfl, concerns_of_cause? hc hmarkup⟩
      · cases hc
    · obtain ⟨m, hm, a', seen', h⟩ := mem_of_checkParts_error h
      exact ih m hm (hn.of_mem hm) h

theorem exists_of_checkList_error {ns : List Node}
    (hns : ∀ n ∈ ns, n.All P) (h : checkList a ns seen = .error p) :
    ∃ m, P m ∧ m.isMarkup = true ∧ p.At m := by
  rw [← checkParts_const] at h
  obtain ⟨n, hn, a', seen', h⟩ := mem_of_checkParts_error h
  exact exists_of_check_error (hns n hn) h

end Placement

/-- All nodes of the body of a function have a property, if those of the function do. -/
theorem Node.All.body {f : Node} (hf : f.All P) (hb : f.body.kind ≠ .absent) : f.body.All P := by
  revert hb
  unfold Node.body
  split
  · exact fun _ => hf.of_mem (by simp)
  · exact fun _ => hf.of_mem (by simp)
  · exact fun hb => absurd rfl hb

namespace Effect

variable {p : Problem}

/-- What is returned and cannot be a cleanup is reported at its node. -/
theorem exists_of_takeCleanup_error {parts : List Node}
    (hparts : ∀ q ∈ parts, q.All P) (h : takeCleanup parts = .error p) :
    p.cause = .effectCleanup ∧ ∃ e, P e ∧ p.At e ∧ e.kind ≠ .absent ∧
      ∀ x, e.kind ≠ .identifier x := by
  unfold takeCleanup at h
  split at h
  · cases h
  · next before r after hsplit =>
    obtain ⟨rfl, -⟩ := splitReturn?_eq_some_iff.1 hsplit
    split at h
    · cases h
    · next e he =>
      obtain ⟨sr, rfl⟩ := Component.returnValue?_eq_some he
      split at h
      · cases h
      · next hcleanup =>
        cases h
        have hall := hparts _ (List.mem_append_right _ List.mem_cons_self)
        refine ⟨rfl, e, (hall.of_mem List.mem_cons_self).self, ⟨rfl, rfl⟩, fun hk => ?_,
          fun x hk => ?_⟩
        · rw [Component.returnValue?, Node.present?, Node.isAbsent, hk] at he
          cases he
        · refine hcleanup ?_
          rw [isCleanup, Node.identifier?_eq_some.2 hk]
          simp

theorem exists_of_split_error {f : Node} (hf : f.All P) (h : split f = .error p) :
    p.cause = .effectCleanup ∧ ∃ e, P e ∧ p.At e ∧ e.kind ≠ .absent ∧
      ∀ x, e.kind ≠ .identifier x := by
  unfold split at h
  split at h
  · next s parts hbody =>
    have hall := hf.body (by rw [hbody]; simp)
    rw [hbody] at hall
    rcases of_bind_eq_error h with h | ⟨⟨parts', cleanup⟩, -, h⟩
    · exact exists_of_takeCleanup_error (fun q hq => hall.of_mem hq) h
    · dsimp only at h
      split at h <;> cases h
  · split at h <;> cases h

/-- An effect fails for its call, if that is not given a function, or for what the function
    returns. -/
theorem exists_of_ofCall_error {hook : Hook} {call : Node} (hcall : call.All P)
    (hhook : call.hook? = some hook) (h : ofCall hook call = .error p) :
    (P call ∧ p.At call) ∨ p.cause = .effectCleanup ∧ ∃ e, P e ∧ p.At e ∧ e.kind ≠ .absent ∧
      ∀ x, e.kind ≠ .identifier x := by
  unfold ofCall at h
  split at h
  · cases h
    obtain ⟨l, pure, hk⟩ := Node.kind_of_hook? hhook
    exact .inl ⟨hcall.self, rfl, by rw [hk]; rfl⟩
  · next f hf =>
    have hf : f.All P :=
      hcall.of_mem (Node.mem_of_firstArgument? (Option.filter_eq_some_iff.1 hf).1)
    rcases of_bind_eq_error h with h | ⟨a, -, h⟩
    · exact .inr (exists_of_split_error hf h)
    · cases h

/-- Effects fail for a call that is given no function, or for what a function returns. -/
theorem exists_of_lower_error {ss : List Node} (hss : ∀ s ∈ ss, s.All P) (h : lower ss = .error p) :
    (∃ call hook, P call ∧ call.hook? = some hook ∧ p.At call) ∨
      p.cause = .effectCleanup ∧ ∃ e, P e ∧ p.At e ∧ e.kind ≠ .absent ∧
        ∀ x, e.kind ≠ .identifier x := by
  induction ss with
  | nil => cases h
  | cons s ss ih =>
    have htail (h : lower ss = .error p) := ih (fun s hs => hss s (List.mem_cons_of_mem _ hs)) h
    unfold lower at h
    split at h
    · rcases of_bind_eq_error h with h | ⟨a, -, h⟩
      · exact htail h
      · cases h
    · next hook call hs =>
      obtain ⟨sp, rfl, hhook, -⟩ := ofStatement?_eq_some hs
      have hcall : call.All P := (hss _ List.mem_cons_self).of_mem List.mem_cons_self
      have hhook := Node.hook?_of_expressionHook? hhook
      rcases of_bind_eq_error h with h | ⟨e, -, h⟩
      · refine (exists_of_ofCall_error hcall hhook h).imp_left fun h => ?_
        exact ⟨call, hook, h.1, hhook, h.2⟩
      · rcases of_bind_eq_error h with h | ⟨a, -, h⟩
        · exact htail h
        · cases h

section Registering

variable (hP : ∀ m : Node, m.hook? = none → P m)

include hP

/-- What is registered is made of the function of the effect, and calls no further hook. -/
theorem all_takenFrom {f g : Node} (h : TakenFrom f g) (hf : f.All P) : g.All P := by
  have hbody {s : Span} {parts : List Node} (hb : f.body = .mk .functionBody s parts) :
      ∀ q ∈ parts, q.All P := by
    have hall := hf.body (by rw [hb]; simp)
    rw [hb] at hall
    exact fun q hq => hall.of_mem hq
  cases h with
  | whole => exact hf
  | @left s parts parts' hb hsub =>
    have hb' : (Node.mk .functionBody s parts').All P :=
      .of_parts (hP _ rfl) fun q hq => hbody hb q (hsub.subset hq)
    unfold withBody
    split
    · refine .of_parts (hP _ rfl) fun q hq => ?_
      simp only [List.mem_cons, List.not_mem_nil, or_false] at hq
      rcases hq with rfl | rfl | rfl | rfl
      · exact hf.of_mem (by simp)
      · exact hf.of_mem (by simp)
      · exact hf.of_mem (by simp)
      · exact hb'
    · refine .of_parts (hP _ rfl) fun q hq => ?_
      simp only [List.mem_cons, List.not_mem_nil, or_false] at hq
      rcases hq with rfl | rfl | rfl | rfl | rfl
      · exact hf.of_mem (by simp)
      · exact hf.of_mem (by simp)
      · exact hf.of_mem (by simp)
      · exact hf.of_mem (by simp)
      · exact hb'
    · exact hf
  | concise hb =>
    by_cases habsent : f.body.kind = .absent
    · -- There may be no body at all.
      unfold Node.body
      split
      · exact hf.of_mem (by simp)
      · exact hf.of_mem (by simp)
      · exact .leaf (hP _ rfl)
    · exact hf.body habsent
  | returned hb h => exact (hbody hb _ h).of_mem List.mem_cons_self

theorem all_register (m : Lifecycle) {f : Node} (hf : f.All P) : (register m f).All P := by
  have hcall : (Node.calling (.reference m.name f.span) [f] f.span).hook? = none := by
    show Hook.ofName? m.name = none
    cases m <;> decide
  refine .of_parts (hP _ rfl) (List.forall_mem_singleton.2 (.of_parts (hP _ hcall) ?_))
  exact List.forall_mem_cons.2 ⟨.leaf (hP _ rfl), List.forall_mem_cons.2
    ⟨.leaf (hP _ rfl), List.forall_mem_singleton.2 hf⟩⟩

/-- If all nodes but calls of hooks have a property, lowering effects keeps it. -/
theorem all_lower {ss ss' : List Node} {ms : List Lifecycle} (hss : ∀ s ∈ ss, s.All P)
    (h : lower ss = .ok (ss', ms)) : ∀ s ∈ ss', s.All P := by
  induction ss generalizing ss' ms with
  | nil =>
    cases h
    exact hss
  | cons s ss ih =>
    rw [List.forall_mem_cons] at hss
    unfold lower at h
    split at h
    · obtain ⟨⟨rest, ms'⟩, hlower, h⟩ := of_bind_eq_ok h
      cases h
      exact List.forall_mem_cons.2 ⟨hss.1, ih hss.2 hlower⟩
    · next hook call hs =>
      obtain ⟨e, he, h⟩ := of_bind_eq_ok h
      obtain ⟨⟨rest, ms'⟩, hlower, h⟩ := of_bind_eq_ok h
      cases h
      obtain ⟨sp, rfl, -⟩ := ofStatement?_eq_some hs
      refine List.forall_mem_append.2 ⟨List.forall_mem_map.2 fun r hr => ?_, ih hss.2 hlower⟩
      obtain ⟨f, hf, htaken⟩ := takenFrom_of_mem_registrations he hr
      refine all_register hP r.1 (all_takenFrom hP htaken ?_)
      exact (hss.1.of_mem List.mem_cons_self).of_mem (Node.mem_of_firstArgument? hf)

end Registering

end Effect

namespace Node

variable {p : Problem}

theorem eq_of_valueGiven_error {s : Span} {ps : List Node}
    (h : valueGiven s ps = .error p) : p = ⟨.memoArgument, s⟩ := by
  unfold valueGiven at h
  split at h
  · split at h
    · cases h
    · cases h
    · cases h
    · cases h
    · cases h
      rfl
  · cases h
    rfl

/-- A hook that is refused is reported at its call. -/
theorem at_of_replacement_error {n : Node} (h : n.replacement = .error p) :
    (∃ k, n.hook? = some k) ∧ p.At n := by
  have hat {k : Hook} (hk : n.expressionHook? = some k) (hspan : p.span = n.span)
      (hcause : ∀ l pure, p.cause.concerns (.call l pure) = true) :
      (∃ k, n.hook? = some k) ∧ p.At n := by
    obtain ⟨l, pure, hkind⟩ := kind_of_expressionHook? hk
    exact ⟨⟨k, hook?_of_expressionHook? hk⟩, hspan, by rw [hkind]; exact hcause l pure⟩
  unfold replacement at h
  split at h
  · next hk =>
    cases hv : valueGiven n.span n.parts with
    | error q =>
      rw [hv] at h
      cases h
      obtain rfl := eq_of_valueGiven_error hv
      exact hat hk rfl fun _ _ => rfl
    | ok e =>
      rw [hv] at h
      cases h
  · cases h
  · cases h
  · next hk =>
    cases h
    exact hat hk rfl fun _ _ => rfl
  · cases h

theorem exists_of_unmemoList_error {ns : List Node}
    (h : unmemoList ns = .error p) : ∃ n ∈ ns, n.unmemo = .error p := by
  induction ns with
  | nil => cases h
  | cons n ns ih =>
    rcases of_bind_eq_error h with h | ⟨m, -, h⟩
    · exact ⟨n, List.mem_cons_self, h⟩
    · rcases of_bind_eq_error h with h | ⟨ms, -, h⟩
      · obtain ⟨m, hm, h⟩ := ih h
        exact ⟨m, List.mem_cons_of_mem _ hm, h⟩
      · cases h

/-- Hooks that are refused are reported at a call that is met. -/
theorem exists_of_unmemo_error {n : Node} (hP : ∀ m : Node, m.hook? = none → P m)
    (hn : n.All P) (h : n.unmemo = .error p) : ∃ m k, P m ∧ m.hook? = some k ∧ p.At m := by
  -- What replaces a node is not one of its parts, so the induction is along visits.
  induction n using visits_wf.induction with
  | _ n ih =>
    cases hr : n.replacement with
    | error q =>
      rw [unmemo_of_refused hr] at h
      cases h
      obtain ⟨⟨k, hk⟩, hat⟩ := at_of_replacement_error hr
      exact ⟨n, k, hn.self, hk, hat⟩
    | ok r =>
      cases r with
      | some e =>
        rw [unmemo_of_replaced hr] at h
        refine ih e (.replaced hr) ?_ h
        obtain ⟨-, rfl | he⟩ := replacement_cases hr
        · exact .leaf (hP _ rfl)
        · obtain ⟨i, path, hpath⟩ := he.at?
          exact hn.at? hpath
      | none =>
        rw [unmemo_of_kept hr] at h
        rcases of_bind_eq_error h with h | ⟨ms, -, h⟩
        · obtain ⟨q, hq, h⟩ := exists_of_unmemoList_error h
          exact ih q (.part hr hq) (hn.of_mem hq) h
        · cases h

end Node

/-- State that is declared in another form is reported at the declaration, or at the part of it
    that declares the state. -/
theorem StateDeclaration.exists_of_ofStatement?_error {s : Node} {p : Problem} (hs : s.All P)
    (h : ofStatement? s = .error p) :
    ∃ m, P m ∧ p.At m ∧ m.kind.isReported = true ∧ ∀ l pure, m.kind ≠ .call l pure := by
  unfold ofStatement? at h
  split at h
  · split at h
    · cases h
    · next d hfind =>
      split at h
      · cases h
        exact ⟨_, hs.self, ⟨rfl, rfl⟩, rfl, fun _ _ h => by cases h⟩
      · split at h
        · cases h
        · cases h
          obtain ⟨definite, hd⟩ : ∃ definite, d.kind = .declarator definite := by
            have hd := List.find?_some hfind
            unfold Node.declaresState at hd
            split at hd
            · exact ⟨_, rfl⟩
            · cases hd
          refine ⟨d, (hs.of_mem (List.mem_of_find?_eq_some hfind)).self, ⟨rfl, ?_⟩, ?_, ?_⟩
          · rw [hd]
            rfl
          · rw [hd]
            rfl
          · rw [hd]
            exact fun _ _ h => by cases h
  · cases h

namespace Component

variable {typescript : Bool} {c c' : Component} {p : Problem}

/-- Looking for state in statements fails for a text, or for one of them. -/
theorem exists_of_extractCells_error {is : List Nat} (hn : is.Nodup)
    (hbody : ∀ i ∈ is, ∀ s, c.body[i]? = some s → s.All P)
    (h : c.extractCells typescript is = .error p) : (∃ text, p.cause = .template text) ∨
      ∃ m, P m ∧ p.At m ∧ m.kind.isReported = true ∧ ∀ l pure, m.kind ≠ .call l pure := by
  induction is generalizing c with
  | nil => cases h
  | cons i is ih =>
    rw [List.nodup_cons] at hn
    rcases of_bind_eq_error (x := c.extractCell typescript i) h with h | ⟨d, hd, h⟩
    · unfold extractCell at h
      split at h
      · cases h
      · next s hs =>
        rcases of_bind_eq_error h with h | ⟨sd?, -, h⟩
        · exact .inr (StateDeclaration.exists_of_ofStatement?_error
            (hbody i List.mem_cons_self s hs) h)
        · cases sd? with
          | none => cases h
          | some sd =>
            rcases of_bind_eq_error h with h | ⟨t, -, h⟩
            · exact .inl (sd.templated_declaration typescript p h)
            · cases h
    · -- The statements that are looked at later are other ones.
      refine ih hn.2 (fun j hj s hs => hbody j (List.mem_cons_of_mem _ hj) s ?_) h
      rw [← hs, extractCell_frame hd fun hij => hn.1 (hij ▸ hj)]

/-- Extracting state fails for a text, for the declaration of a piece of state, or for a call
    for state that declares none. -/
theorem exists_of_extractState_error (hbody : ∀ s ∈ c.body, s.All P)
    (hstate : ∀ s ∈ c.body, ∀ d t, StateDeclaration.ofStatement? s = .ok (some d) →
      d.declaration typescript = .ok t → t.All P)
    (h : c.extractState typescript = .error p) : (∃ text, p.cause = .template text) ∨
      (∃ m, P m ∧ p.At m ∧ m.kind.isReported = true ∧ ∀ l pure, m.kind ≠ .call l pure) ∨
      ∃ m k, P m ∧ m.hook? = some k ∧ p.At m := by
  rcases of_bind_eq_error h with h | ⟨d, hd, h⟩
  · refine (exists_of_extractCells_error List.nodup_range (fun i _ s hs => ?_) h).imp_right .inl
    exact hbody s (List.mem_of_getElem? hs)
  · split at h
    · next call hfind =>
      cases h
      obtain ⟨t, ht, hfind⟩ := Node.mem_of_findList? hfind
      have ht : t.All P := by
        obtain ⟨i, hi⟩ := List.mem_iff_getElem?.1 ht
        have hlt : i < c.body.length := by
          rw [← (extractCells_extractsFrom hd).length]
          exact (List.getElem?_eq_some_iff.1 hi).1
        have hs := List.getElem?_eq_getElem hlt
        rcases extractCells_body List.nodup_range hd (List.mem_range.2 hlt) hs with
          ⟨-, hsame, -⟩ | ⟨sd, t', hsd, ht', hsame, -⟩
        · cases hi.symm.trans hsame
          exact hbody _ (List.getElem_mem hlt)
        · cases hi.symm.trans hsame
          exact hstate _ (List.getElem_mem hlt) sd t hsd ht'
      obtain ⟨hcall, hhook⟩ := ht.of_find? hfind
      have hhook : call.hook? = some .state := of_decide_eq_true hhook
      obtain ⟨l, pure, hk⟩ := Node.kind_of_hook? hhook
      exact .inr (.inr ⟨call, _, hcall, hhook, rfl, by rw [hk]; rfl⟩)
    · rcases of_bind_eq_error h with h | ⟨e, -, h⟩
      · exact .inl (templated_unsetCalls d p h)
      · rcases of_bind_eq_error h with h | ⟨f, -, h⟩
        · exact .inl (templated_propagate e p h)
        · cases h

/-! ### The component of a module -/

theorem mem_of_strayReturnList? {last sp : Span} {ns : List Node}
    (h : strayReturnList? last ns = some sp) : ∃ n ∈ ns, strayReturn? last n = some sp := by
  induction ns with
  | nil => cases h
  | cons n ns ih =>
    rw [strayReturnList?, Option.or_eq_some_iff] at h
    rcases h with h | ⟨-, h⟩
    · exact ⟨n, List.mem_cons_self, h⟩
    · obtain ⟨m, hm, h⟩ := ih h
      exact ⟨m, List.mem_cons_of_mem _ hm, h⟩

/-- What is astray is a return. -/
theorem exists_of_strayReturn? {last sp : Span} {n : Node} (hn : n.All P)
    (h : strayReturn? last n = some sp) : ∃ m, P m ∧ m.kind = .returnStatement ∧ m.span = sp := by
  induction n with
  | mk k s ps ih =>
    rw [strayReturn?_mk] at h
    split at h
    · cases h
    · split at h
      · next hk =>
        cases h
        exact ⟨_, hn.self, hk.1, rfl⟩
      · obtain ⟨q, hq, h⟩ := mem_of_strayReturnList? h
        exact ih q hq (hn.of_mem hq) h

section Functions

variable {f : Node}

/-- A statement of a function is part of it, or it gives back a concise body. -/
theorem all_of_mem_bodyOf (hf : f.All P) (hb : f.body.isAbsent = false) {s : Node}
    (hs : s ∈ bodyOf f) :
    f.body.All P ∧ (s.All P ∨ s = .mk .returnStatement f.body.span [f.body] ∧ bodyOf f = [s]) := by
  have hbody : f.body.All P := hf.body fun hk => by
    rw [Node.isAbsent, hk] at hb
    cases hb
  refine ⟨hbody, ?_⟩
  unfold bodyOf at hs ⊢
  split at hs
  · next hk =>
    rw [Node.statements, hk] at hs
    exact .inl (hbody.of_mem (List.mem_filter.1 hs).1)
  · obtain rfl := List.mem_singleton.1 hs
    exact .inr ⟨rfl, rfl⟩

/-- What is wrong with the way that a component returns shows at a node of its function. -/
theorem exists_of_returnProblem? (hf : f.All P) (hb : f.body.isAbsent = false)
    (hspan : c.span = f.span) (hbody : c.body = bodyOf f) (h : c.returnProblem? = some p) :
    ∃ m, P m ∧ p.At m := by
  -- A statement has the stretch of a node, also if it gives back a concise body.
  have hstatement {s : Node} (hs : s ∈ c.body) : ∃ m, P m ∧ m.span = s.span := by
    rw [hbody] at hs
    obtain ⟨hfbody, hs | ⟨rfl, -⟩⟩ := all_of_mem_bodyOf hf hb hs
    · exact ⟨s, hs.self, rfl⟩
    · exact ⟨f.body, hfbody.self, rfl⟩
  unfold returnProblem? at h
  split at h
  · cases h
    exact ⟨f, hf.self, hspan, rfl⟩
  · next s es hlast =>
    have hmem := List.mem_of_getLast? hlast
    split at h
    · cases h
      obtain ⟨m, hm, hms⟩ := hstatement hmem
      exact ⟨m, hm, hms.symm, rfl⟩
    · next e he =>
      obtain ⟨sr, hes⟩ := returnValue?_eq_some he
      cases hes
      have hmem' := hbody ▸ hmem
      split at h
      · obtain ⟨sp, hstray, h⟩ := Option.map_eq_some_iff.1 h
        cases h
        obtain ⟨n, hn, hstray⟩ := mem_of_strayReturnList? hstray
        obtain ⟨m, hm, hk, hms⟩ : ∃ m, P m ∧ m.kind = .returnStatement ∧ m.span = sp := by
          obtain ⟨hfbody, hn' | ⟨rfl, hone⟩⟩ := all_of_mem_bodyOf hf hb (hbody ▸ hn)
          · exact exists_of_strayReturn? hn' hstray
          · -- The return that gives back a concise body is the last one.
            rw [hone, List.mem_singleton] at hmem'
            cases hmem'
            rw [strayReturn?_mk, if_neg (by decide), if_neg (by simp)] at hstray
            obtain ⟨q, hq, hstray⟩ := mem_of_strayReturnList? hstray
            obtain rfl := List.mem_singleton.1 hq
            exact exists_of_strayReturn? hfbody hstray
        exact ⟨m, hm, hms.symm, by rw [hk]; rfl⟩
      · cases h
        obtain ⟨hfbody, hr | ⟨hr, -⟩⟩ := all_of_mem_bodyOf hf hb hmem'
        · exact ⟨e, (hr.of_mem List.mem_cons_self).self, rfl, rfl⟩
        · cases hr
          exact ⟨_, hfbody.self, rfl, rfl⟩
  · next last _ hlast =>
    cases h
    obtain ⟨m, hm, hms⟩ := hstatement (List.mem_of_getLast? hlast)
    exact ⟨m, hm, hms.symm, rfl⟩

end Functions

variable {module : List Node} {length : Nat}

/-- A module has no component for lack of an export, or for a problem that shows at one of its
    nodes. -/
theorem exists_of_ofModule_error
    (hmodule : ∀ s ∈ module, s.All P) (h : ofModule length module = .error p) :
    p = ⟨.noExport, ⟨0, length⟩⟩ ∨ ∃ m, P m ∧ p.At m := by
  unfold ofModule at h
  split at h
  · next e he =>
    obtain ⟨hf, hk⟩ := Export.holds_resolve (fun hs hp => hs.of_mem hp) hmodule he
    dsimp only at h
    split at h
    · cases h
      exact .inr ⟨e.function, hf.self, rfl, hk⟩
    · next hb =>
      split at h
      · next hproblem =>
        cases h
        exact .inr (exists_of_returnProblem? hf (by simpa using hb) rfl rfl hproblem)
      · cases h
  · cases h
    exact .inl rfl

/-- The nodes of the component of a module are those of the module, or give back a concise
    body. -/
theorem all_ofModule {state : Text → Prop} {holes : Bool}
    (hmodule : ∀ s ∈ module, s.All P) (h : ofModule length module = .ok c) :
    (∀ s ∈ c.module, s.All (Node.Traced P state holes)) ∧
      ∀ s ∈ c.body, s.All (Node.Traced P state holes) := by
  obtain ⟨e, he, hb, rfl, -⟩ := exists_export_of_ofModule h
  obtain ⟨hf, -⟩ := Export.holds_resolve (fun hs hp => hs.of_mem hp) hmodule he
  refine ⟨fun s hs => (hmodule s (List.mem_filter.1 hs).1).traced, fun s hs => ?_⟩
  obtain ⟨hfbody, hs | ⟨rfl, -⟩⟩ := all_of_mem_bodyOf hf hb hs
  · exact hs.traced
  · exact .of_parts (.origin hfbody.self ⟨rfl, fun hreported => by cases hreported⟩)
      (List.forall_mem_singleton.2 hfbody.traced)

/-- What the component of a module returns is part of the module. -/
theorem returned?_ofModule {v : Node}
    (hmodule : ∀ s ∈ module, s.All P) (h : ofModule length module = .ok c)
    (hv : c.returned? = some v) : P v := by
  obtain ⟨e, he, hb, rfl, -⟩ := exists_export_of_ofModule h
  obtain ⟨hf, -⟩ := Export.holds_resolve (fun hs hp => hs.of_mem hp) hmodule he
  obtain ⟨r, hr, hv⟩ := Option.bind_eq_some_iff.1 hv
  obtain ⟨sr, rfl⟩ := returnValue?_eq_some hv
  obtain ⟨hfbody, hs | ⟨hs, -⟩⟩ := all_of_mem_bodyOf hf hb (List.mem_of_getLast? hr)
  · exact (hs.of_mem List.mem_cons_self).self
  · cases hs
    exact hfbody.self

end Component

end Unhook
