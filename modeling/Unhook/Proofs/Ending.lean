import Unhook.Proofs.Legible
import Unhook.Proofs.Reading.Statement
import Unhook.Proofs.Trimming

/-!
# The return of the component

The body of a component ends in a return that gives something back, and there is
no other return in it, outside functions and classes (`Node.Ends`). This is so
when the component is found, as the returns of its statements come one after the
other, and every step keeps it.

* `Component.ended_ofModule`: the component of a module that has been read;
* `Component.Ended.run`: every step keeps the end;
* `Component.return_stays_last`: the return is last after every step, and is not
  in the script.
-/

namespace Unhook

namespace Node

/-- A return that gives markup or a name back. -/
def Closes (n : Node) : Prop :=
  ∃ s e, n = mk .returnStatement s [e] ∧ Component.isReturnable e = true ∧ Within nowhere e

/-- Statements that end in their only return. -/
inductive Ends : List Node → Prop
  | last {s : Node} (hs : s.Closes) : Ends [s]
  | cons {s : Node} {ss : List Node} (hs : Within nowhere s) (h : Ends ss) : Ends (s :: ss)

namespace Ends

variable {ss ts : List Node}

theorem append (h : Ends ss) (hts : Within nowhere ts) : Ends (ts ++ ss) := by
  induction ts with
  | nil => exact h
  | cons t ts ih =>
    obtain ⟨ht, hts⟩ := List.forall_mem_cons.1 (Within.list_iff.1 hts)
    exact .cons ht (ih (Within.list_iff.2 hts))

theorem eq_append (h : Ends ss) : ∃ init s e, ss = init ++ [mk .returnStatement s [e]] ∧
    Within nowhere init ∧ Within nowhere e ∧ Component.isReturnable e = true := by
  induction h with
  | last hs =>
    obtain ⟨s, e, rfl, he, hwithin⟩ := hs
    exact ⟨[], s, e, rfl, inferInstance, hwithin, he⟩
  | cons hs _ ih =>
    obtain ⟨init, s, e, rfl, hinit, hwithin, he⟩ := ih
    exact ⟨_ :: init, s, e, rfl, inferInstance, hwithin, he⟩

/-- What replaces statements one by one keeps the end if it keeps returns last. -/
theorem forall₂ {R : Node → Node → Prop} (h : Ends ss) (hR : List.Forall₂ R ss ts)
    (hquiet : ∀ {s t}, R s t → Within nowhere s → Within nowhere t)
    (hcloses : ∀ {s t}, R s t → s.Closes → t.Closes) : Ends ts := by
  induction h generalizing ts with
  | last hs =>
    cases hR with
    | cons hst hnil =>
      cases hnil
      exact .last (hcloses hst hs)
  | cons hs _ ih =>
    cases hR with
    | cons hst hR => exact .cons (hquiet hst hs) (ih hR)

/-- A statement that is no return can be replaced. -/
theorem set (h : Ends ss) {i : Nat} {s t : Node} (hs : ss[i]? = some s) (hclose : ¬s.Closes)
    (ht : Within nowhere s → Within nowhere t) : Ends (ss.set i t) := by
  induction h generalizing i with
  | last hlast =>
    cases i with
    | zero =>
      cases hs
      exact absurd hlast hclose
    | succ i => cases hs
  | cons hfirst h ih =>
    cases i with
    | zero =>
      cases hs
      exact .cons (ht hfirst) h
    | succ i => exact .cons hfirst (ih hs)

end Ends

theorem isReturnable_iff {e : Node} : Component.isReturnable e = true ↔
    e.kind = .element ∨ e.kind = .fragment ∨ ∃ x, e.kind = .identifier x := by
  obtain ⟨k, s, ps⟩ := e
  cases k <;> simp [Component.isReturnable, isMarkup, identifier?]

/-- A statement `t` that can take the place of `s`, also at the end. -/
structure Follows (s t : Node) : Prop where
  trims : Trims s t
  closes : s.Closes → t.Closes

namespace Follows

theorem refl (s : Node) : Follows s s := ⟨.refl s, id⟩

end Follows

namespace Ends

variable {ss ts : List Node}

theorem follows (h : Ends ss) (hR : List.Forall₂ Follows ss ts) : Ends ts :=
  h.forall₂ hR (fun hst => hst.trims.within) fun hst => hst.closes

theorem map (h : Ends ss) {f : Node → Node} (hf : ∀ s, Follows s (f s)) : Ends (ss.map f) :=
  h.follows (List.forall₂_map_right_iff.2 (List.forall₂_same.2 fun s _ => hf s))

/-- Statements other than the last one can be left out. -/
theorem filterMap (h : Ends ss) {f : Node → Option Node}
    (hquiet : ∀ {s t}, f s = some t → Within nowhere s → Within nowhere t)
    (hcloses : ∀ {s}, s.Closes → f s = some s) : Ends (ss.filterMap f) := by
  induction h with
  | last hs =>
    rw [List.filterMap_cons_some (hcloses hs)]
    exact .last hs
  | @cons s ss hs h ih =>
    cases ht : f s with
    | none => rwa [List.filterMap_cons_none ht]
    | some t =>
      rw [List.filterMap_cons_some ht]
      exact .cons (hquiet ht hs) ih

end Ends

/-! ### What is returned -/

/-- A value that is markup or a name like another one, and has its stretch. -/
structure Matching (e e' : Node) : Prop where
  span : e'.span = e.span
  markup : e'.isMarkup = e.isMarkup
  name : e'.identifier?.isSome = e.identifier?.isSome

theorem Matching.trans {e e' e'' : Node} (h : Matching e e') (h' : Matching e' e'') : Matching e e'' :=
  ⟨h'.span.trans h.span, h'.markup.trans h.markup, h'.name.trans h.name⟩

theorem Matching.isReturnable {e e' : Node} (h : Matching e e')
    (he : Component.isReturnable e = true) : Component.isReturnable e' = true := by
  rw [Component.isReturnable, h.markup, h.name]
  exact he

/-- A statement `t` that returns what `s` returns, if that may be returned. -/
def Echoes (s t : Node) : Prop :=
  ∀ sp e, s = .mk .returnStatement sp [e] → Component.isReturnable e = true →
    ∃ e', t = .mk .returnStatement sp [e'] ∧ Matching e e'

theorem Echoes.refl (s : Node) : Echoes s s := fun _ e hs _ => ⟨e, hs, rfl, rfl, rfl⟩

theorem Echoes.trans {s t u : Node} (h : Echoes s t) (h' : Echoes t u) : Echoes s u := by
  intro sp e hs he
  obtain ⟨e', ht, hee'⟩ := h sp e hs he
  obtain ⟨e'', hu, he'e''⟩ := h' sp e' ht (hee'.isReturnable he)
  exact ⟨e'', hu, hee'.trans he'e''⟩

/-- What is returned has no returns, and what it becomes has none. -/
theorem Echoes.follows {s t : Node} (h : Echoes s t) (htrims : Trims s t) : Follows s t := by
  refine ⟨htrims, ?_⟩
  rintro ⟨sp, e, rfl, he, hwithin⟩
  obtain ⟨e', rfl, hee'⟩ := h sp e rfl he
  have hsound : (mk .returnStatement sp [e]).Sound := by
    refine .node ?_ (fun _ => ?_) (fun h => by cases h) fun h => by cases h
    · exact fun p hp => List.mem_singleton.1 hp ▸ hwithin.sound
    · exact fun p hp => List.mem_singleton.1 hp ▸ hwithin.returns_eq_nil
  have hsound := htrims.sound hsound
  refine ⟨sp, e', rfl, hee'.isReturnable he, .of_node (hsound.of_mem List.mem_cons_self) ?_⟩
  rw [hsound.given_back List.mem_cons_self]
  exact fun _ h => absurd h List.not_mem_nil

/-- To see that a step keeps what is returned it is enough to look at markup and names. -/
theorem echoes_of_map (f : Node → Node)
    (hreturn : ∀ {sp e}, f (.mk .returnStatement sp [e]) = .mk .returnStatement sp [f e])
    (helement : ∀ {s ps}, Matching (.mk .element s ps) (f (.mk .element s ps)))
    (hfragment : ∀ {s ps}, Matching (.mk .fragment s ps) (f (.mk .fragment s ps)))
    (hname : ∀ {x s ps}, Matching (.mk (.identifier x) s ps) (f (.mk (.identifier x) s ps)))
    (s : Node) : Echoes s (f s) := by
  rintro sp ⟨k, se, ps⟩ rfl he
  refine ⟨f (.mk k se ps), hreturn, ?_⟩
  rcases isReturnable_iff.1 he with hk | hk | ⟨x, hk⟩ <;> obtain rfl := hk
  · exact helement
  · exact hfragment
  · exact hname

theorem echoes_rename (old new : Text) (s : Node) : Echoes s (s.rename old new) :=
  echoes_of_map (rename old new) rfl ⟨rfl, rfl, rfl⟩ ⟨rfl, rfl, rfl⟩ ⟨rfl, rfl, rfl⟩ s

theorem echoes_renameAttributes (s : Node) : Echoes s s.renameAttributes :=
  echoes_of_map renameAttributes rfl ⟨rfl, rfl, rfl⟩ ⟨rfl, rfl, rfl⟩ ⟨rfl, rfl, rfl⟩ s

theorem echoes_lowerLists {names : List Text} (s : Node) (bs : List Block) :
    Echoes s (s.lowerLists names bs).1 :=
  echoes_of_map (fun s => (s.lowerLists names bs).1) rfl ⟨rfl, rfl, rfl⟩ ⟨rfl, rfl, rfl⟩
    ⟨rfl, rfl, rfl⟩ s

theorem echoes_lowerChoices {names : List Text} (s : Node) (bs : List Block) :
    Echoes s (s.lowerChoices names false bs).1 :=
  echoes_of_map (fun s => (s.lowerChoices names false bs).1) rfl ⟨rfl, rfl, rfl⟩ ⟨rfl, rfl, rfl⟩
    ⟨rfl, rfl, rfl⟩ s

theorem echoes_substitute (r : Text → Option Node) (s : Node) : Echoes s (s.substitute r) :=
  echoes_of_map (substitute r) rfl ⟨rfl, rfl, rfl⟩ ⟨rfl, rfl, rfl⟩ ⟨rfl, rfl, rfl⟩ s

theorem echoes_assigned (setters : List (Text × Text)) (s : Node) :
    Echoes s (s.assigned setters) := by
  rintro sp ⟨k, se, ps⟩ rfl he
  refine ⟨(mk k se ps).assigned setters, assigned_of_not_sets rfl, ?_⟩
  rcases isReturnable_iff.1 he with hk | hk | ⟨x, hk⟩ <;> obtain rfl := hk <;>
    rw [assigned_of_not_sets rfl] <;> exact ⟨rfl, rfl, rfl⟩

theorem echoes_unmemo {s t : Node} (h : s.unmemo = .ok t) : Echoes s t := by
  rintro sp ⟨k, se, ps⟩ rfl he
  obtain ⟨ms, hms, h⟩ := of_bind_eq_ok h
  cases h
  obtain ⟨e', he', h⟩ := of_bind_eq_ok hms
  cases h
  refine ⟨e', rfl, ?_⟩
  rcases isReturnable_iff.1 he with hk | hk | ⟨x, hk⟩ <;> obtain rfl := hk
  all_goals
    obtain ⟨qs, -, h⟩ := of_bind_eq_ok he'
    cases h
    exact ⟨rfl, rfl, rfl⟩

end Node

theorem Node.kind_of_hook? {n : Node} {h : Hook} (hn : n.hook? = some h) :
    ∃ l pure, n.kind = .call l pure := by
  unfold hook? at hn
  split at hn
  · exact ⟨_, _, rfl⟩
  · cases hn

/-- The first argument of a call is one of its parts. -/
theorem Node.within_firstArgument? {r : Span → Prop} {n a : Node} (hn : Within r n)
    (hcall : ∃ l pure, n.kind = .call l pure) (ha : n.firstArgument? = some a) : Within r a := by
  obtain ⟨k, s, ps⟩ := n
  obtain ⟨l, pure, rfl⟩ := hcall
  exact hn.of_mem rfl (mem_of_firstArgument? ha)

/-! ### Templates -/

theorem Template.within_read {typescript : Bool} {text : Text} {s : Node}
    (h : Template.read typescript text = .ok s) : Within nowhere s := by
  unfold Template.read at h
  split at h
  · next hparse =>
    cases h
    exact Grammar.within_parseModule? hparse List.mem_cons_self
  · cases h

theorem within_reactive {s : Node} (hs : Within nowhere s) : Within nowhere (reactive s) :=
  inferInstanceAs (Within nowhere (Node.mk (.labeled _) _ [s]))

theorem within_declared? {s p init : Node} (h : s.declared? = some (p, init))
    (hs : Within nowhere s) : Within nowhere init := by
  unfold Node.declared? at h
  split at h
  · split at h
    · cases h
    · cases h
      exact (hs.of_mem rfl List.mem_cons_self).of_mem rfl (by simp)
  · cases h

/-- A return is not made reactive, and what is made reactive has no returns if it had
    none. -/
theorem within_reactiveForm {typescript : Bool} {s r : Node} {names : List Text}
    (h : reactiveForm typescript s = .ok (some (r, names))) :
    ¬s.Closes ∧ (Within nowhere s → Within nowhere r) := by
  rcases reactiveForm_cases h with ⟨hw, rfl, -⟩ | ⟨p, init, a, hdeclared, ha, rfl, -⟩
  · refine ⟨?_, within_reactive⟩
    rintro ⟨sp, e, rfl, -⟩
    cases hw
  · refine ⟨?_, fun hs => within_reactive ?_⟩
    · rintro ⟨sp, e, rfl, -⟩
      cases hdeclared
    · exact (Node.trims_fill (within_declared? hdeclared hs) a).within (Template.within_read ha)

/-! ### Effects -/

/-- The body of a function is sound, and has no returns if it is concise. -/
theorem Node.Sound.body {f : Node} (hf : f.Sound) : f.body.Sound ∧ f.body.Confined := by
  unfold Node.body
  split
  · exact ⟨hf.of_mem (by simp), hf.confined rfl (by simp)⟩
  · exact ⟨hf.of_mem (by simp), hf.confined rfl (by simp)⟩
  · exact (Within.absent (r := nowhere)).confined

namespace Effect

/-- Another body can be put in the place of the body of a function. -/
theorem trims_withBody {f b : Node} (h : f.body.Trims b) : f.Trims (withBody b f) := by
  unfold withBody
  split
  · exact .parts (.cons (.refl _) (.cons (.refl _) (.cons (.refl _) (.cons h .nil))))
  · exact .parts (.cons (.refl _) (.cons (.refl _) (.cons (.refl _) (.cons (.refl _) (.cons h .nil)))))
  · exact .refl _

/-- What is taken from the function of an effect has no returns: a concise body has none,
    and what is given back has none. -/
theorem within_takenFrom {f g : Node} (h : TakenFrom f g) (hf : Within nowhere f) :
    Within nowhere g := by
  obtain ⟨hsound, hconfined⟩ := hf.sound.body
  cases h with
  | whole => exact hf
  | left hbody hsub => exact (trims_withBody (hbody ▸ .sublist hsub)).within hf
  | concise hbody =>
    refine .of_node hsound fun t ht => ?_
    rw [hconfined.resolve_left hbody] at ht
    cases ht
  | returned hbody hr =>
    rw [hbody] at hsound
    have hr := hsound.of_mem hr
    refine .of_node (hr.of_mem List.mem_cons_self) fun t ht => ?_
    rw [hr.given_back List.mem_cons_self] at ht
    cases ht

theorem within_register {f : Node} (m : Lifecycle) (hf : Within nowhere f) :
    Within nowhere (register m f) :=
  inferInstanceAs (Within nowhere (Node.mk .expressionStatement _
    [.mk (.call .plain false) _ [.mk (.identifier _) _ [], Node.absent, f]]))

/-- The functions that are registered for an effect have no returns. -/
theorem within_registrations {hook : Hook} {call : Node} {e : Effect}
    (h : ofCall hook call = .ok e) (hk : ∃ l pure, call.kind = .call l pure)
    (hcall : Within nowhere call) : ∀ r ∈ e.registrations, Within nowhere r.2 := by
  intro r hr
  obtain ⟨f, hf, htaken⟩ := takenFrom_of_mem_registrations h hr
  exact within_takenFrom htaken (Node.within_firstArgument? hcall hk hf)

theorem ends_lower {ss ss' : List Node} {ms : List Lifecycle} (h : lower ss = .ok (ss', ms))
    (hss : Node.Ends ss) : Node.Ends ss' := by
  induction hss generalizing ss' ms with
  | last hs =>
    obtain ⟨sp, e, rfl, he⟩ := hs
    cases h
    exact .last ⟨sp, e, rfl, he⟩
  | cons hs _ ih =>
    unfold lower at h
    split at h
    · obtain ⟨⟨rest, ms'⟩, hlower, h⟩ := of_bind_eq_ok h
      cases h
      exact .cons hs (ih hlower)
    · next hook call hcall =>
      obtain ⟨e, he, h⟩ := of_bind_eq_ok h
      obtain ⟨⟨rest, ms'⟩, hlower, h⟩ := of_bind_eq_ok h
      cases h
      obtain ⟨sp, rfl, hk, -⟩ := ofStatement?_eq_some hcall
      refine (ih hlower).append (Within.list_iff.2 (List.forall_mem_map.2 fun r hr => ?_))
      refine within_register r.1 (within_registrations he ?_ (hs.of_mem rfl List.mem_cons_self) r hr)
      exact Node.kind_of_expressionHook? hk

end Effect

/-! ### Values of markup variables -/

namespace MarkupTable

variable {x : Text} {s v : Node}

open Node

theorem within_unlabeled (hs : Unhook.Within nowhere s) : Unhook.Within nowhere s.unlabeled := by
  unfold unlabeled
  split
  · exact hs.of_mem rfl List.mem_cons_self
  · exact hs

/-- The markup that a statement gives to a name stands in a declarator or an assignment
    of the statement. -/
theorem of_mem_ofStatement {s v : Node} (h : (x, v) ∈ ofStatement s) :
    v.isMarkupValue = true ∧ ∃ k sp ds k' sp' ps, s.unlabeled = mk k sp ds ∧ k.encloses = false ∧
      mk k' sp' ps ∈ ds ∧ k'.encloses = false ∧ v ∈ ps := by
  unfold ofStatement at h
  split at h
  · next hs =>
    obtain ⟨d, hd, h⟩ := List.mem_filterMap.1 h
    obtain ⟨h, hv⟩ := Option.filter_eq_some_iff.1 h
    unfold declarator? at h
    split at h
    · split at h
      · cases h
      · cases h
        exact ⟨hv, _, _, _, _, _, _, hs, rfl, hd, rfl, by simp⟩
    · cases h
  · next hs =>
    obtain ⟨h, hv⟩ := Option.filter_eq_some_iff.1 (Option.mem_toList.1 h)
    unfold assignment? at h
    split at h
    · cases h
      exact ⟨hv, _, _, _, _, _, _, hs, rfl, List.mem_cons_self, rfl, by simp⟩
    · cases h
  · cases h

/-- The markup that a statement gives to a name has no returns. -/
theorem within_ofStatement {s v : Node} (hs : Unhook.Within nowhere s)
    (h : (x, v) ∈ ofStatement s) : Unhook.Within nowhere v ∧ v.isMarkupValue = true := by
  obtain ⟨hv, k, sp, ds, k', sp', ps, hu, hk, hd, hk', hmem⟩ := of_mem_ofStatement h
  have hs := within_unlabeled hs
  rw [hu] at hs
  exact ⟨(hs.of_mem hk hd).of_mem hk' hmem, hv⟩

/-- Markup variables of which the values have no returns. -/
def Quiet (t : MarkupTable) : Prop :=
  ∀ x v, (x, v) ∈ t → Unhook.Within nowhere v ∧ v.isMarkupValue = true

theorem quiet_ofStatements {ss : List Node} (hss : Unhook.Within nowhere ss) : Quiet (ofStatements ss) := by
  intro x v h
  obtain ⟨s, hs, h⟩ := List.mem_flatMap.1 h
  exact within_ofStatement (Unhook.Within.list_iff.1 hss s hs) h

variable {t : MarkupTable}

theorem Quiet.resolveWithin (ht : t.Quiet) {fuel : Nat} {active : List Text}
    (h : t.resolveWithin fuel active x = some v) : Unhook.Within nowhere v := by
  refine resolveWithin_induction (fun _ _ x u hu ih => ?_) h
  exact (trims_substitute ih u).within (ht x u (mem_of_value? hu)).1

theorem isReturnable_of_isMarkupValue (h : v.isMarkupValue = true) :
    Component.isReturnable v = true := by
  rw [isReturnable_iff]
  obtain ⟨k, s, ps⟩ := v
  cases k
  case element | fragment | identifier => simp
  all_goals cases h

theorem Quiet.resolve (ht : t.Quiet) (h : t.resolve x = some v) :
    Unhook.Within nowhere v ∧ Component.isReturnable v = true := by
  refine ⟨ht.resolveWithin h, ?_⟩
  obtain ⟨u, hu, hkind, -⟩ := kind_resolveWithin h
  rw [isReturnable_iff, hkind, ← isReturnable_iff]
  exact isReturnable_of_isMarkupValue (ht x u (mem_of_value? hu)).2

/-- What is left of a statement has no returns if the statement had none. -/
theorem within_withoutMarkup {s s' : Node} (h : withoutMarkup s = some s')
    (hs : Unhook.Within nowhere s) : Unhook.Within nowhere s' := by
  have hkept (k : VarKind) (d : Bool) (sp : Span) (ds : List Node) (p : Node → Bool)
      (hds : Unhook.Within nowhere (mk (.declaration k d) sp ds)) :
      Unhook.Within nowhere (mk (.declaration k d) sp (ds.filter p)) := by
    have : Unhook.Within nowhere (ds.filter p) := Unhook.Within.list_iff.2 fun u hu =>
      hds.of_mem rfl (List.mem_filter.1 hu).1
    infer_instance
  have hlabeled (l : Text) (sp : Span) {u : Node} (hu : Unhook.Within nowhere u) :
      Unhook.Within nowhere (mk (.labeled l) sp [u]) := inferInstance
  unfold withoutMarkup at h
  dsimp only at h
  split at h
  · cases h
    exact hs
  · split at h
    · split at h
      · cases h
      · cases h
        exact hkept _ _ _ _ _ hs
    · split at h
      · cases h
      · cases h
        exact hlabeled _ _ (hkept _ _ _ _ _ (hs.of_mem rfl List.mem_cons_self))
    · cases h

theorem withoutMarkup_of_closes (hs : s.Closes) : withoutMarkup s = some s := by
  obtain ⟨sp, e, rfl, -⟩ := hs
  rfl

/-- The markup that a return gives back instead of a variable. -/
theorem Quiet.fillReturn (ht : t.Quiet) (hs : s.Closes) : (Component.fillReturn t s).Closes := by
  obtain ⟨sp, e, rfl, he, hwithin⟩ := hs
  cases hv : e.identifier?.bind t.resolve with
  | none => exact ⟨sp, e, by simp [Component.fillReturn, hv], he, hwithin⟩
  | some v =>
    obtain ⟨x, -, hx⟩ := Option.bind_eq_some_iff.1 hv
    obtain ⟨hv', hreturnable⟩ := ht.resolve hx
    exact ⟨sp, v, by simp [Component.fillReturn, hv], hreturnable, hv'⟩

theorem Quiet.fillLast (ht : t.Quiet) {ss : List Node} (hss : Ends ss) :
    Ends (Component.fillLast t ss) := by
  induction hss with
  | last hs => exact .last (ht.fillReturn hs)
  | @cons s ss hs hss ih =>
    cases hss with
    | last _ => exact .cons hs ih
    | cons _ _ => exact .cons hs ih

end MarkupTable

/-! ### Exports -/

namespace Export

section Parts

variable {Q : Node → Prop} (hQ : ∀ {k s ps p}, Q (.mk k s ps) → p ∈ ps → Q p) {e : Export}
  {name : Text}

include hQ

/-- What a search finds is a function and part of what is searched, and so it is what all
    parts of that are. -/
theorem holds_ofExpression {lookup : Text → Search} (hlookup : ∀ x e, lookup x = .found e →
      Q e.function ∧ e.function.kind.isFunctional = true) {n : Node} (hn : Q n)
    (h : ofExpression lookup n = .found e) :
    Q e.function ∧ e.function.kind.isFunctional = true := by
  fun_induction ofExpression lookup n generalizing e with
  | case1 _ _ _ _ _ a _ _ ih => exact ih (hQ hn (by simp)) h
  | case2 => cases h
  | case3 x => exact hlookup x e h
  | case4 _ _ target value ih =>
    cases hv : ofExpression lookup value with
    | found e' =>
      rw [hv] at h
      cases h
      exact ih (hQ hn (by simp)) (e := e') hv
    | nothing =>
      rw [hv] at h
      cases h
    | endless =>
      rw [hv] at h
      cases h
  | case5 | case6 =>
    cases h
    exact ⟨hn, rfl⟩
  | case7 => cases h

theorem holds_values {s v : Node} (hs : Q s) (hv : v ∈ values name s) : Q v := by
  unfold values at hv
  split at hv
  · split at hv
    · obtain rfl := List.mem_singleton.1 hv
      exact hs
    · cases hv
  · obtain ⟨d, hd, hv⟩ := List.mem_filterMap.1 hv
    split at hv
    · next hdeclarator =>
      split at hv
      · cases hv
        unfold Node.declarator? at hdeclarator
        split at hdeclarator
        · split at hdeclarator
          · cases hdeclarator
          · cases hdeclarator
            exact hQ (hQ hs hd) (by simp)
        · cases hdeclarator
      · cases hv
    · cases hv
  · split at hv
    · next hassignment =>
      split at hv
      · obtain rfl := List.mem_singleton.1 hv
        unfold Node.assignment? at hassignment
        split at hassignment
        · cases hassignment
          exact hQ (hQ hs List.mem_cons_self) (by simp)
        · cases hassignment
      · cases hv
    · cases hv
  · cases hv

omit hQ in
theorem holds_firstOf {resolve : Node → Search} {values : List (Node × Span)}
    (hresolve : ∀ v ∈ values, ∀ e, resolve v.1 = .found e →
      Q e.function ∧ e.function.kind.isFunctional = true)
    (h : firstOf resolve name values = .found e) :
    Q e.function ∧ e.function.kind.isFunctional = true := by
  induction values with
  | nil => cases h
  | cons v values ih =>
    obtain ⟨v, sp⟩ := v
    unfold firstOf at h
    split at h
    · next e' he' =>
      cases h
      exact hresolve _ List.mem_cons_self e' he'
    · exact ih (fun v hv => hresolve v (List.mem_cons_of_mem _ hv)) h
    · cases h

theorem holds_ofName {module : List Node} (hmodule : ∀ s ∈ module, Q s) {fuel : Nat}
    (h : ofName module fuel name = .found e) :
    Q e.function ∧ e.function.kind.isFunctional = true := by
  induction fuel generalizing name e with
  | zero => cases h
  | succ fuel ih =>
    refine holds_firstOf (fun v hv e he => ?_) h
    obtain ⟨s, hs, hv⟩ := List.mem_flatMap.1 hv
    obtain ⟨u, hu, rfl⟩ := List.mem_map.1 hv
    exact holds_ofExpression hQ (fun x e h => ih h) (holds_values hQ (hmodule s hs) hu) he

theorem holds_resolve {module : List Node} (hmodule : ∀ s ∈ module, Q s) {fuel : Nat}
    (h : resolve module fuel = .found e) : Q e.function ∧ e.function.kind.isFunctional = true := by
  unfold resolve at h
  split at h
  · next hfind =>
    have hs := hmodule _ (List.mem_of_find?_eq_some hfind)
    split at h
    · next e' he' =>
      cases h
      exact holds_ofExpression hQ (e := e') (fun x e h => holds_ofName hQ hmodule h)
        (hQ hs List.mem_cons_self) he'
    · next houtcome =>
      exact absurd h (houtcome e)
  · cases h

end Parts

theorem sound_resolve {module : List Node} (hmodule : ∀ s ∈ module, s.Sound) {fuel : Nat}
    {e : Export} (h : resolve module fuel = .found e) : e.function.Sound :=
  (holds_resolve (fun hs hp => hs.of_mem hp) hmodule h).1

end Export

namespace Component

variable {typescript : Bool} {c c' : Component} {options : Options} {module : List Node}
  {source : Text}

/-- A component of which the body ends in its only return. -/
structure Ended (c : Component) : Prop where
  module : Within nowhere c.module
  body : Node.Ends c.body

/-! ### Props and state -/

theorem settle_ends {i : Nat} {bound : Bool} (h : c.settle typescript i = .ok (c', bound))
    (hc : Node.Ends c.body) : Node.Ends c'.body := by
  rcases settle_eq_ok h with ⟨rfl, -⟩ | ⟨s, hs, -, ⟨-, -, rfl⟩ | ⟨r, names, hr, -, rfl⟩⟩
  · exact hc
  · exact hc
  · obtain ⟨hclose, hwithin⟩ := within_reactiveForm hr
    exact hc.set hs hclose hwithin

theorem follows_renamed (c : Component) (s : Node) : s.Follows (c.renamed s) := by
  unfold renamed
  split
  · exact (Node.echoes_rename _ _ s).follows (Node.trims_rename _ _ s)
  · exact .refl s

theorem Ended.bindProps (hc : c.Ended) (h : c.bindProps typescript = .ok c') : c'.Ended := by
  obtain ⟨d, aliases, n, hd, h'⟩ := bindProps_eq_ok h
  have haliases : Within nowhere aliases := by
    refine Within.list_iff.2 fun a ha => ?_
    have ha : Except.ok a ∈ c.aliasTexts.map (Template.read typescript) :=
      hd.texts ▸ List.mem_map.2 ⟨a, ha, rfl⟩
    obtain ⟨t, -, ht⟩ := List.mem_map.1 ha
    exact Template.within_read ht
  refine ⟨(bindProps_bindsFields h).module ▸ hc.module, propagate_keeps (P := fun c => Node.Ends c.body)
    settle_ends h' ?_⟩
  rw [hd.body]
  exact (hc.body.map fun s => follows_renamed c s).append haliases

/-- The variable of a piece of state has no returns if its initial value has none. -/
theorem within_declaration {s t : Node} {sd : StateDeclaration}
    (hsd : StateDeclaration.ofStatement? s = .ok (some sd)) (ht : sd.declaration typescript = .ok t)
    (hs : Within nowhere s) : Within nowhere t := by
  obtain ⟨k, d, sp, dk, sp', sp₂, sp₃, qs, sp₄, qs', note, init, rfl, hhook, hfirst⟩ :=
    StateDeclaration.ofStatement?_eq_some hsd
  unfold StateDeclaration.declaration at ht
  split at ht
  · next value hvalue =>
    obtain ⟨a, ha, rfl⟩ := Template.readWith_eq_ok ht
    refine (Node.trims_fill ?_ a).within (Template.within_read ha)
    obtain ⟨definite, rfl⟩ : ∃ definite, dk = .declarator definite := by
      cases dk
      case declarator definite => exact ⟨definite, rfl⟩
      all_goals cases hsd
    have hinit := (hs.of_mem rfl List.mem_cons_self).of_mem rfl (by simp : init ∈ _)
    exact Node.within_firstArgument? hinit (Node.kind_of_hook? hhook) (hfirst.symm.trans hvalue)
  · exact Template.within_read ht

theorem extractCell_ends {i : Nat} (h : c.extractCell typescript i = .ok c')
    (hc : Node.Ends c.body) : Node.Ends c'.body := by
  obtain ⟨rfl, -⟩ | ⟨s, sd, t, hs, hsd, ht, rfl⟩ := extractCell_eq_ok h
  · exact hc
  · refine hc.set hs ?_ fun hwithin => ?_
    · rintro ⟨sp, e, rfl, -⟩
      cases hsd
    · exact within_declaration hsd ht hwithin

theorem Ended.extractState (hc : c.Ended) (h : c.extractState typescript = .ok c') : c'.Ended := by
  refine ⟨(extractState_sameFrame h).module ▸ hc.module, ?_⟩
  obtain ⟨d, e, n, hd, -, he, h⟩ := extractState_eq_ok h
  obtain ⟨is, ss, -, he⟩ := unsetCalls_eq_ok he
  have hd := extractCells_keeps (P := fun c => Node.Ends c.body) (fun _ => extractCell_ends) hd hc.body
  refine propagate_keeps (P := fun c => Node.Ends c.body) settle_ends h ?_
  refine settleAll_keeps (P := fun c => Node.Ends c.body) settle_ends he ?_
  exact hd.map fun s => (Node.echoes_assigned _ s).follows (Node.trims_assigned s)

/-! ### Markup -/

theorem Ended.renameAttributes (hc : c.Ended) : c.renameAttributes.Ended := by
  refine ⟨?_, ?_⟩
  · show Within nowhere (Node.renameAttributesList c.module)
    rw [Node.renameAttributesList_eq]
    exact Within.list_iff.2 (List.forall_mem_map.2 fun n hn =>
      (Node.trims_renameAttributes n).within (Within.list_iff.1 hc.module n hn))
  · show Node.Ends (Node.renameAttributesList c.body)
    rw [Node.renameAttributesList_eq]
    exact hc.body.map fun s =>
      (Node.echoes_renameAttributes s).follows (Node.trims_renameAttributes s)

theorem Ended.findMarkupNames (hc : c.Ended) : c.findMarkupNames.Ended := ⟨hc.module, hc.body⟩

theorem Ended.lowerLists (hc : c.Ended) : c.lowerLists.Ended :=
  ⟨Node.Trims.withinList
      (Node.forall₂_lowerListsList (fun n _ bs => Node.trims_lowerLists n bs) _)
      (Within.list_iff.1 hc.module),
    hc.body.follows (Node.forall₂_lowerListsList (fun n _ bs =>
      (Node.echoes_lowerLists n bs).follows (Node.trims_lowerLists n bs)) _)⟩

theorem Ended.lowerChoices (hc : c.Ended) : c.lowerChoices.Ended :=
  ⟨Node.Trims.withinList
      (Node.forall₂_lowerChoicesList (fun n _ bs => Node.trims_lowerChoices n false bs) _)
      (Within.list_iff.1 hc.module),
    hc.body.follows (Node.forall₂_lowerChoicesList (fun n _ bs =>
      (Node.echoes_lowerChoices n bs).follows (Node.trims_lowerChoices n false bs)) _)⟩

theorem Ended.lowerMarkup (hc : c.Ended) : c.lowerMarkup.Ended :=
  hc.renameAttributes.findMarkupNames.lowerLists.findMarkupNames.lowerChoices

/-! ### Hooks -/

theorem Ended.lowerEffects (hc : c.Ended) (h : c.lowerEffects = .ok c') : c'.Ended := by
  obtain ⟨body, ms, lifecycle, hlower, -, rfl⟩ := lowerEffects_eq_ok h
  exact ⟨hc.module, Effect.ends_lower hlower hc.body⟩

theorem Ended.unmemo (hc : c.Ended) (h : c.unmemo = .ok c') : c'.Ended := by
  obtain ⟨module, body, hmodule, hbody, rfl⟩ := unmemo_eq_ok h
  refine ⟨?_, ?_⟩
  · exact Node.Trims.withinList
      ((Node.forall₂_of_unmemoList hmodule).imp fun _ _ h => Node.trims_unmemo h)
      (Within.list_iff.1 hc.module)
  · exact hc.body.follows ((Node.forall₂_of_unmemoList hbody).imp fun _ _ h =>
      (Node.echoes_unmemo h).follows (Node.trims_unmemo h))

/-! ### Markup variables -/

theorem Ended.inlineMarkup (hc : c.Ended) : c.inlineMarkup.Ended := by
  have ht : c.markupTable.Quiet := by
    obtain ⟨init, s, e, hbody, hinit, -⟩ := hc.body.eq_append
    intro x v hv
    rcases List.mem_append.1 hv with hv | hv
    · exact MarkupTable.quiet_ofStatements hc.module x v hv
    · rw [hbody, List.dropLast_concat] at hv
      exact MarkupTable.quiet_ofStatements hinit x v hv
  have hresolve (x : Text) (v : Node) (hv : c.markupTable.resolve x = some v) : Within nowhere v :=
    (ht.resolve hv).1
  refine ⟨?_, ?_⟩
  · show Within nowhere ((Node.substituteList c.markupTable.resolve c.module).filterMap _)
    rw [Node.substituteList_eq]
    refine Within.list_iff.2 fun s hs => ?_
    obtain ⟨u, hu, hs⟩ := List.mem_filterMap.1 hs
    obtain ⟨n, hn, rfl⟩ := List.mem_map.1 hu
    refine MarkupTable.within_withoutMarkup hs ?_
    exact (Node.trims_substitute hresolve n).within (Within.list_iff.1 hc.module n hn)
  · show Node.Ends ((Node.substituteList c.markupTable.resolve
      (fillLast c.markupTable c.body)).filterMap _)
    rw [Node.substituteList_eq]
    exact ((ht.fillLast hc.body).map fun s => (Node.echoes_substitute _ s).follows
      (Node.trims_substitute hresolve s)).filterMap MarkupTable.within_withoutMarkup MarkupTable.withoutMarkup_of_closes

/-! ### All steps -/

/-- Every step keeps the end of the body. -/
theorem Ended.run (hc : c.Ended) {p : Pass} (h : p.run typescript c = .ok c') : c'.Ended := by
  cases p with
  | props => exact hc.bindProps h
  | state => exact hc.extractState h
  | placement => exact checkPlacement_eq_ok h ▸ hc
  | lowering =>
    cases h
    exact hc.lowerMarkup
  | hooks =>
    obtain ⟨d, hd, h⟩ := of_bind_eq_ok h
    exact (hc.lowerEffects hd).unmemo h
  | inlining =>
    cases h
    exact hc.inlineMarkup

/-- The returns of the statements of a function come one after the other. -/
theorem apart_bodyOf {f : Node} (hf : f.Sound) :
    (∀ s ∈ bodyOf f, s.Sound) ∧ Node.Apart (bodyOf f) := by
  obtain ⟨hsound, hconfined⟩ := hf.body
  unfold bodyOf
  generalize f.body = b at hsound hconfined
  obtain ⟨k, sp, ps⟩ := b
  split
  · next hk =>
    obtain rfl : k = .functionBody := hk
    refine ⟨fun s hs => hsound.of_mem (List.mem_filter.1 hs).1, hsound.apart.sublist ?_⟩
    exact List.filter_sublist
  · next hk =>
    refine ⟨List.forall_mem_singleton.2 (.node ?_ (fun _ => ?_) (fun h => by cases h)
      fun h => by cases h), List.pairwise_singleton _ _⟩
    · exact List.forall_mem_singleton.2 hsound
    · exact List.forall_mem_singleton.2 (hconfined.resolve_left hk)

/-- A component without a problem in the way that it returns. -/
theorem ends_of_returnProblem? (hsound : ∀ s ∈ c.body, s.Sound) (hapart : Node.Apart c.body)
    (h : c.returnProblem? = none) : Node.Ends c.body := by
  unfold returnProblem? at h
  split at h
  · cases h
  · next s es hlast =>
    split at h
    · cases h
    · next e he =>
      obtain ⟨_, hes⟩ := returnValue?_eq_some he
      cases hes
      split at h
      · next hreturnable =>
        have hstray := strayReturnList?_eq_none.1 (Option.map_eq_none_iff.1 h)
        obtain ⟨init, hbody⟩ := List.getLast?_eq_some_iff.1 hlast
        rw [hbody] at hsound hapart hstray ⊢
        have hr := hsound _ (List.mem_append_right _ List.mem_cons_self)
        refine Node.Ends.append (.last ⟨s, e, rfl, hreturnable, ?_⟩) (Within.list_iff.2 fun n hn => ?_)
        · refine .of_node (hr.of_mem List.mem_cons_self) fun t ht => ?_
          rw [hr.given_back List.mem_cons_self] at ht
          cases ht
        · -- A return before the last one begins before it, and so is another one.
          refine .of_node (hsound n (List.mem_append_left _ hn)) fun t ht => ?_
          have hlt := (List.pairwise_append.1 hapart).2.2 n hn _ List.mem_cons_self t ht s
            (by rw [Node.returns_returnStatement]; exact List.mem_cons_self)
          rw [hstray n (List.mem_append_left _ hn) t ht] at hlt
          exact absurd hlt (Nat.lt_irrefl _)
      · cases h
  · cases h

/-- The component of a module that has been read ends in its only return. -/
theorem ended_ofModule {length : Nat} (hmodule : Within nowhere module)
    (h : ofModule length module = .ok c) : c.Ended := by
  have hmodule := Within.list_iff.1 hmodule
  obtain ⟨e, he, -, rfl, hproblem⟩ := exists_export_of_ofModule h
  obtain ⟨hsound, hapart⟩ :=
    apart_bodyOf (Export.sound_resolve (fun s hs => (hmodule s hs).sound) he)
  refine ⟨Within.list_iff.2 fun s hs => hmodule s (List.mem_filter.1 hs).1, ?_⟩
  exact ends_of_returnProblem? hsound hapart hproblem

theorem Ended.runAll {passes : List Pass} (hc : c.Ended)
    (h : passes.foldlM (fun c p => p.run typescript c) c = .ok c') : c'.Ended := by
  induction passes generalizing c with
  | nil =>
    cases h
    exact hc
  | cons p passes ih =>
    obtain ⟨d, hd, h⟩ := of_bind_eq_ok (x := p.run typescript c) h
    exact ih (hc.run hd) h

theorem parseModule?_of_parse (h : parse options source = .ok module) :
    Grammar.parseModule? options.typescript source = some module := by
  unfold parse at h
  split at h
  · next hparse =>
    cases h
    exact hparse
  · cases h

/-- The component that is found in a source ends in its only return. -/
theorem ended_located (hmodule : parse options source = .ok module)
    (h : ofModule source.byteLength module = .ok c) : c.Ended :=
  ended_ofModule (Within.list_iff.2 fun _ hn =>
    Grammar.within_parseModule? (parseModule?_of_parse hmodule) hn) h

theorem ended_compileThrough {passes : List Pass}
    (h : compileThrough options passes source = .ok c) : c.Ended := by
  obtain ⟨module, hmodule, h⟩ := of_bind_eq_ok h
  obtain ⟨d, hd, h⟩ := of_bind_eq_ok h
  exact (ended_located hmodule hd).runAll h

/-- The end of a body, in full. -/
theorem Ended.eq_append (hc : c.Ended) : ∃ init s e,
    c.body = init ++ [.mk .returnStatement s [e]] ∧ c.returned? = some e ∧ e.returns = [] ∧
      ∀ n ∈ init, n.returns = [] := by
  obtain ⟨init, s, e, hbody, hinit, he, hreturnable⟩ := hc.body.eq_append
  refine ⟨init, s, e, hbody, ?_, he.returns_eq_nil, fun n hn =>
    (Within.list_iff.1 hinit n hn).returns_eq_nil⟩
  have hpresent : e.isAbsent = false := by
    obtain ⟨k, sp, ps⟩ := e
    rcases Node.isReturnable_iff.1 hreturnable with hk | hk | ⟨x, hk⟩ <;> obtain rfl := hk <;> rfl
  rw [returned?, hbody, List.getLast?_concat]
  show e.present? = some e
  rw [Node.present?, hpresent]
  rfl

/-- The script is what stands around the body, with the body in its place. -/
theorem script_eq_around {items : List Text} (h : c.script options = .ok items) :
    ∃ before after, { c with body := [], synthesized := [] }.script options = .ok before ∧
      Document.setterItems options.typescript c c.synthesized = .ok after ∧
      items = before ++ c.body.dropLast.map Node.printStatement ++ after := by
  obtain ⟨after, hafter, h⟩ := of_bind_eq_ok h
  cases h
  refine ⟨_, after, rfl, hafter, ?_⟩
  simp only [List.dropLast_nil, List.map_nil, List.append_nil]

/-- The return of a component stays last and alone: after all steps that succeed the body
    ends in a return that gives something back, and there is no other return outside
    functions and classes. So the script has the body without this return, and no
    return at all outside functions and classes. -/
theorem return_stays_last {options : Options} {source : Text} :
    (∀ passes c, compileThrough options passes source = .ok c →
      ∃ init s e, c.body = init ++ [.mk .returnStatement s [e]] ∧ c.returned? = some e ∧
        e.returns = [] ∧ ∀ n ∈ init, n.returns = []) ∧
    ∀ doc, compile? options source = .ok doc →
      ∃ c before after, compileThrough options Pass.all source = .ok c ∧
        { c with body := [], synthesized := [] }.script options = .ok before ∧
        Document.setterItems options.typescript c c.synthesized = .ok after ∧
        doc.script = before ++ c.body.dropLast.map Node.printStatement ++ after ∧
        ∀ n ∈ c.body.dropLast, n.returns = [] := by
  refine ⟨fun passes c hc => (ended_compileThrough hc).eq_append, fun doc hdoc => ?_⟩
  obtain ⟨c, hc, hdoc⟩ := of_bind_eq_ok hdoc
  obtain ⟨script, markup, hscript, -, rfl⟩ := document_eq_ok hdoc
  obtain ⟨before, after, hbefore, hafter, rfl⟩ := script_eq_around hscript
  obtain ⟨init, s, e, hbody, -, -, hinit⟩ := (ended_compileThrough hc).eq_append
  refine ⟨c, before, after, hc, hbefore, hafter, rfl, ?_⟩
  rwa [hbody, List.dropLast_concat]

/-- A component with an effect that has a cleanup, a function that returns, and markup
    that is returned by name. -/
def returningSource : Text :=
  "export default () => \x7b
    useEffect(() => \x7b open(); return () => \x7b return close(); \x7d; \x7d, []);
    const one = () => \x7b return 1; \x7d;
    const view = <p>\x7bone()\x7d</p>;
    return view;
  \x7d;"

theorem returning_stays_last :
    ∃ c doc, compileThrough {} Pass.all returningSource = .ok c ∧
      compile? {} returningSource = .ok doc ∧
      (∃ e, c.returned? = some e ∧ e.kind = .element ∧ e.returns = []) ∧
      c.body.dropLast.map Node.returns = [[], [], []] ∧ doc.script.length = 4 := by
  have hsource : ((compileThrough {} Pass.all returningSource).toOption.bind fun c =>
      (compile? {} returningSource).toOption.map fun doc =>
        (c.returned?.map Node.kind, c.body.length, doc.script.length)) =
      some (some .element, 4, 4) := by
    rw [(by apply String.toList_ofList : returningSource = _)]
    decide +kernel
  obtain ⟨c, hc, hsource⟩ := of_toOption_bind hsource
  obtain ⟨doc, hdoc, hsource⟩ := of_toOption_map hsource
  simp only [Prod.mk.injEq] at hsource
  obtain ⟨hkind, hlength, hscript⟩ := hsource
  obtain ⟨init, s, e, hbody, hreturned, he, hinit⟩ := return_stays_last.1 Pass.all c hc
  refine ⟨c, doc, hc, hdoc, ⟨e, hreturned, ?_, he⟩, ?_, hscript⟩
  · rw [hreturned] at hkind
    exact Option.some.inj hkind
  · rw [hbody, List.length_append, List.length_singleton] at hlength
    rw [hbody, List.dropLast_concat]
    exact (List.map_congr_left hinit).trans (by rw [List.map_const', Nat.succ.inj hlength]; rfl)

end Component

end Unhook
