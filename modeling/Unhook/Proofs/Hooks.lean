import Mathlib.Data.List.Basic
import Unhook.Proofs.Cleanup
import Unhook.Proofs.Lifting
import Unhook.Proofs.Memoized

/-!
# Hooks that are taken apart

Effects and memoizing hooks are calls, and so are replaced by parts of their
arguments, among which no content may stand. Content therefore stands where it
may after hooks are taken apart if it did before.

* `Node.fits_unmemo`: memoizing hooks;
* `Effect.fitsBody_lower`: effects;
* `Component.fits_hooks`: both, for a component.
-/

namespace Unhook

namespace Node

variable {w : Content} {spot : Spot} {k : Kind} {s : Span}

theorem fits_part {l : Bool} {n p : Node} {j : Nat} (h : n.fits w l spot = true)
    (hp : n.parts[j]? = some p) :
    p.fits w (l && !n.kind.isAttribute) (spot.part l n.kind (n.parts.map kind) j) = true := by
  obtain ⟨k, s, ps⟩ := n
  have hfits := fitsList_iff.1 (fits_mk.1 h).2 j p hp
  rwa [Nat.zero_add] at hfits

/-- A node among the parts of which no content may stand. -/
theorem fits_iff_forall_mem {ps : List Node}
    (hpart : ∀ i, spot.part false k (ps.map kind) i = .expression) :
    (mk k s ps).fits w false spot = true ↔ (w.isKind k = true → w.mayStand spot = true) ∧
      ∀ p ∈ ps, p.fits w false .expression = true := by
  rw [fits_mk, fitsList_iff, Bool.false_and]
  refine and_congr_right fun _ => ⟨fun h p hp => ?_, fun h j p hp => ?_⟩
  · obtain ⟨j, hj⟩ := List.getElem?_of_mem hp
    exact hpart (0 + j) ▸ h j p hj
  · rw [hpart]
    exact h p (List.mem_of_getElem? hp)

/-- A name that stands for no block fits anywhere. -/
theorem fits_reference (hw : w.Lifts) {x : Text} (hx : Block.index? x = none) (s : Span)
    (l : Bool) (spot : Spot) : (reference x s).fits w l spot = true := by
  rw [reference, fits_mk]
  refine ⟨fun hk => ?_, rfl⟩
  have hi := hw.index x hk
  rw [hx] at hi
  cases hi

/-! ### Memoizing hooks -/

/-- Of a function no part may have content. -/
theorem fits_of_isFunctional {ps : List Node} {p : Node}
    (hk : k.isFunctional = true) (h : (mk k s ps).fits w false .expression = true) (hp : p ∈ ps) :
    p.fits w false .expression = true := by
  obtain ⟨j, hj⟩ := List.getElem?_of_mem hp
  cases k
  case arrow | function => exact fits_part h hj
  all_goals cases hk

/-- What a call memoizes is within its arguments, and so has no content. -/
theorem fits_memoizes {n e : Node} (h : Memoizes n e)
    (hn : n.fits w false spot = true) : e.fits w false .expression = true := by
  cases h with
  | argument => exact fits_part (j := 2) hn rfl
  | concise => exact fits_part (j := 3) (fits_part (j := 2) hn rfl) rfl
  | returned hk hbody he =>
    have hbody := fits_of_isFunctional hk (fits_part (j := 2) hn rfl) hbody
    obtain ⟨j, hj⟩ := List.getElem?_of_mem he
    exact fits_part (j := 0) (fits_part hbody hj) rfl

/-- The spots of parts depend on names that are introduced or assigned to only,
    and not on calls. -/
theorem part_of_kinds (spot : Spot) (k : Kind) {ks ks' : List Kind} (hlength : ks'.length = ks.length)
    (hhead : ∀ k, ks.head? = some k → (∀ l b, k ≠ .call l b) → ks'.head? = some k) (i : Nat) :
    spot.part false k ks' i = spot.part false k ks i ∨ spot.part false k ks i = .expression := by
  cases k
  case container | labeled | expressionStatement | returnStatement =>
    rcases ks with _ | ⟨a, _ | ⟨b, ks⟩⟩
    case cons.nil =>
      obtain ⟨a', rfl⟩ := List.length_eq_one_iff.1 hlength
      exact .inl rfl
    all_goals exact .inr rfl
  case conditional =>
    rcases ks with _ | ⟨a, _ | ⟨b, _ | ⟨c, _ | ⟨d, ks⟩⟩⟩⟩
    case cons.cons.cons.nil =>
      obtain ⟨a', b', c', rfl⟩ := List.length_eq_three.1 hlength
      exact .inl rfl
    all_goals exact .inr rfl
  case binary op =>
    rcases ks with _ | ⟨a, _ | ⟨b, _ | ⟨c, ks⟩⟩⟩
    case cons.cons.nil =>
      obtain ⟨a', b', rfl⟩ := List.length_eq_two.1 hlength
      exact .inl (by cases op <;> rfl)
    all_goals exact .inr (by cases op <;> rfl)
  case declarator =>
    rcases ks with _ | ⟨a, _ | ⟨b, _ | ⟨c, _ | ⟨d, ks⟩⟩⟩⟩
    case cons.cons.cons.nil =>
      obtain ⟨a', b', c', rfl⟩ := List.length_eq_three.1 hlength
      cases a
      case binding x =>
        obtain rfl := Option.some.inj (hhead _ rfl (by simp))
        exact .inl rfl
      all_goals exact .inr rfl
    case nil => exact .inr rfl
    all_goals exact .inr (by cases a <;> rfl)
  case assign =>
    rcases ks with _ | ⟨a, _ | ⟨b, _ | ⟨c, ks⟩⟩⟩
    case cons.cons.nil =>
      obtain ⟨a', b', rfl⟩ := List.length_eq_two.1 hlength
      cases a
      case target x =>
        obtain rfl := Option.some.inj (hhead _ rfl (by simp))
        exact .inl rfl
      all_goals exact .inr rfl
    case nil => exact .inr rfl
    all_goals exact .inr (by cases a <;> rfl)
  all_goals exact .inl rfl

/-- The parts of a node that is no hook keep their spots. -/
theorem fits_of_forall₂_unmemo (hw : w.Lifts)
    {ps ms : List Node} (h : List.Forall₂ (fun n m => n.unmemo = .ok m ∧
      ∀ spot, n.fits w false spot = true → m.fits w false spot = true) ps ms)
    (hn : (mk k s ps).fits w false spot = true) : (mk k s ms).fits w false spot = true := by
  have hlength : (ms.map kind).length = (ps.map kind).length := by simp [h.length_eq]
  have hhead (k : Kind) (hk : (ps.map kind).head? = some k) (hcall : ∀ l b, k ≠ .call l b) :
      (ms.map kind).head? = some k := by
    cases h with
    | nil => exact hk
    | cons hnm =>
      obtain rfl := Option.some.inj hk
      refine congrArg some (kind_of_unmemo hnm.1 ?_)
      unfold isMemo expressionHook?
      split
      · next hk => exact (hcall _ _ hk).elim
      · rfl
  rw [fits_mk, fitsList_iff]
  refine ⟨(fits_mk.1 hn).1, fun j m hm => ?_⟩
  obtain ⟨hj, rfl⟩ := List.getElem?_eq_some_iff.1 hm
  have hj' : j < ps.length := h.length_eq ▸ hj
  have hfits := (h.get hj' hj).2 _ (fits_part hn (List.getElem?_eq_getElem hj'))
  rw [Nat.zero_add]
  rcases part_of_kinds spot k hlength hhead j with hpart | hpart
  · rw [hpart]
    exact hfits
  · rw [kind_mk, parts_mk, hpart] at hfits
    exact fits_of_fits_expression hw hfits _

/-- Content stays where it may stand when memoizing hooks are taken apart. -/
theorem fits_unmemo (hw : w.Lifts) {n m : Node} (h : n.unmemo = .ok m) :
    ∀ spot, n.fits w false spot = true → m.fits w false spot = true := by
  refine unmemo_induction (motive := fun n m => ∀ spot, n.fits w false spot = true →
    m.fits w false spot = true) ?_ ?_ ?_ h
  · exact fun _ _ hms spot hn => fits_of_forall₂_unmemo hw hms hn
  · exact fun _ spot _ => fits_reference hw rfl _ _ _
  · exact fun _ he ih spot hn => fits_of_fits_expression hw (ih _ (fits_memoizes he hn)) spot

end Node

/-! ### Effects -/

namespace Effect

open Node

variable {w : Content}

theorem fits_absent (hw : w.Lifts) (l : Bool) (spot : Spot) : absent.fits w l spot = true := by
  have hk : w.isKind .absent = false := isKind_of_not_shows hw [] (n := absent) rfl
  rw [absent, fits_mk, hk]
  exact ⟨fun h => (Bool.false_ne_true h).elim, rfl⟩

theorem fits_body (hw : w.Lifts) {f : Node} (h : f.fits w false .expression = true) :
    f.body.fits w false .expression = true := by
  unfold body
  split
  · exact fits_part (j := 3) h rfl
  · exact fits_part (j := 4) h rfl
  · exact fits_absent hw _ _

theorem fits_withBody {f b : Node} (hf : f.fits w false .expression = true)
    (hb : b.fits w false .expression = true) : (withBody b f).fits w false .expression = true := by
  unfold withBody
  split
  case h_3 => exact hf
  all_goals
    rw [fits_iff_forall_mem fun _ => rfl] at hf ⊢
    refine ⟨hf.1, ?_⟩
    simp only [List.forall_mem_cons] at hf ⊢
    simp [hf, hb]

/-- What is taken from the function of an effect has no content where none may
    stand. -/
theorem fits_takenFrom (hw : w.Lifts) {f g : Node} (h : TakenFrom f g)
    (hf : f.fits w false .expression = true) : g.fits w false .expression = true := by
  have hbody := fits_body hw hf
  have hpart {s : Span} {parts : List Node} (hb : f.body = .mk .functionBody s parts) (p : Node)
      (hp : p ∈ parts) : p.fits w false .expression = true := by
    obtain ⟨j, hj⟩ := List.getElem?_of_mem hp
    exact fits_part (hb ▸ hbody) hj
  cases h with
  | whole => exact hf
  | left hb hsub =>
    refine fits_withBody hf ?_
    rw [hb, fits_mk] at hbody
    rw [fits_mk, fitsList_iff]
    exact ⟨hbody.1, fun j p hp => hpart hb p (hsub.subset (List.mem_of_getElem? hp))⟩
  | concise => exact hbody
  | returned hb hr => exact fits_part (j := 0) (hpart hb _ hr) rfl

/-- The statement that registers a function has no content if the function has
    none. -/
theorem fits_register (hw : w.Lifts) (m : Lifecycle) {f : Node}
    (hf : f.fits w false .expression = true) (spot : Spot) :
    (register m f).fits w false spot = true := by
  have hname : Block.index? m.name = none := by cases m <;> decide
  have hstatement : w.isKind .expressionStatement = false :=
    isKind_of_not_shows hw [] (n := Node.mk .expressionStatement f.span []) rfl
  have hcall : w.isKind (.call .plain false) = false :=
    isKind_of_not_shows hw [] (n := Node.mk (.call .plain false) f.span []) rfl
  refine fits_of_fits_expression hw ?_ spot
  rw [register, asStatement, calling, fits_iff_forall_mem fun _ => rfl, List.forall_mem_singleton,
    fits_iff_forall_mem fun _ => rfl, hstatement, hcall]
  simp [fits_reference hw hname, fits_absent hw, hf]

/-- The functions that are registered for an effect have no content where none
    may stand. -/
theorem fits_registrations (hw : w.Lifts) {hook : Hook} {call : Node} {e : Effect}
    (h : ofCall hook call = .ok e) (hcall : ∀ p ∈ call.parts, p.fits w false .expression = true) :
    ∀ r ∈ e.registrations, r.2.fits w false .expression = true := by
  intro r hr
  obtain ⟨f, hf, htaken⟩ := takenFrom_of_mem_registrations h hr
  exact fits_takenFrom hw htaken (hcall f (mem_of_firstArgument? hf))

/-- Of a statement that is an effect the arguments have no content where none
    may stand. -/
theorem fits_of_ofStatement? {s call : Node} {hook : Hook} {spot : Spot}
    (h : ofStatement? s = some (hook, call)) (hs : s.fits w false spot = true) :
    ∀ p ∈ call.parts, p.fits w false .expression = true := by
  obtain ⟨sp, rfl, hk, -⟩ := ofStatement?_eq_some h
  have hcall := fits_part (j := 0) hs rfl
  unfold expressionHook? at hk
  split at hk
  · next hkind =>
    intro p hp
    obtain ⟨j, hj⟩ := List.getElem?_of_mem hp
    have hp := fits_part hcall hj
    rw [hkind] at hp
    exact hp
  · cases hk

/-- Statements of which the first has no content at all. -/
theorem fitsBody_cons {s : Node} {ss : List Node} (hs : ∀ spot, s.fits w false spot = true)
    (hss : fitsBody w false ss = true) : fitsBody w false (s :: ss) = true := by
  cases ss with
  | nil => exact hs .last
  | cons s' ss => exact Bool.and_eq_true_iff.2 ⟨hs .statement, hss⟩

/-- Effects become statements without content. -/
theorem fitsBody_lower (hw : w.Lifts) {ss ss' : List Node} {ms : List Lifecycle}
    (h : lower ss = .ok (ss', ms)) (hss : fitsBody w false ss = true) :
    fitsBody w false ss' = true ∧ (ss ≠ [] → ss' ≠ []) := by
  induction ss generalizing ss' ms with
  | nil =>
    cases h
    exact ⟨rfl, fun h => h⟩
  | cons s ss ih =>
    obtain ⟨⟨spot, hs⟩, hrest⟩ : (∃ spot, s.fits w false spot = true) ∧
        fitsBody w false ss = true := by
      cases ss with
      | nil => exact ⟨⟨.last, hss⟩, rfl⟩
      | cons s' ss => exact ⟨⟨.statement, (Bool.and_eq_true_iff.1 hss).1⟩,
          (Bool.and_eq_true_iff.1 hss).2⟩
    unfold lower at h
    split at h
    · obtain ⟨⟨rest, ms'⟩, hlower, h⟩ := of_bind_eq_ok h
      cases h
      obtain ⟨ih, hne⟩ := ih hlower hrest
      refine ⟨?_, fun _ => List.cons_ne_nil _ _⟩
      cases ss with
      | nil =>
        cases hlower
        exact hss
      | cons s' ss =>
        obtain ⟨r, rs, rfl⟩ := List.exists_cons_of_ne_nil (hne (List.cons_ne_nil _ _))
        exact Bool.and_eq_true_iff.2 ⟨(Bool.and_eq_true_iff.1 hss).1, ih⟩
    · next hook call hcall =>
      obtain ⟨e, he, h⟩ := of_bind_eq_ok h
      obtain ⟨⟨rest, ms'⟩, hlower, h⟩ := of_bind_eq_ok h
      cases h
      obtain ⟨ih, -⟩ := ih hlower hrest
      have hrs := fits_registrations hw he (fits_of_ofStatement? hcall hs)
      refine ⟨?_, fun _ => by simp [registrations_ne_nil he]⟩
      generalize e.registrations = rs at hrs
      induction rs with
      | nil => exact ih
      | cons r rs ihrs =>
        refine fitsBody_cons (fits_register hw _ (hrs r List.mem_cons_self)) ?_
        exact ihrs fun r hr => hrs r (List.mem_cons_of_mem _ hr)

end Effect

/-! ### Components -/

namespace Component

open Node

variable {w : Content}

theorem foldl_useLifecycle (ms : List Lifecycle) (c : Component) :
    ms.foldl (fun c m => c.useLifecycle m.name) c =
      { c with
        lifecycle := (ms.map Lifecycle.name).foldl (fun l name => insertNew name l) c.lifecycle } := by
  induction ms generalizing c with
  | nil => rfl
  | cons m ms ih => exact ih (c.useLifecycle m.name)

/-- Effects change the body and the lifecycle functions in use only, and none is left in
    the body. -/
theorem lowerEffects_eq_ok {c c' : Component} (h : c.lowerEffects = .ok c') :
    ∃ body ms lifecycle, Effect.lower c.body = .ok (body, ms) ∧
      findList? isEffectCall body = none ∧ c' = { c with body, lifecycle } := by
  obtain ⟨⟨body, ms⟩, hlower, h⟩ := of_bind_eq_ok h
  dsimp only at h
  split at h
  · cases h
  · next hnone =>
    cases h
    exact ⟨body, ms, _, hlower, hnone, foldl_useLifecycle ms _⟩

/-- Taking memoizing hooks apart changes statements only. -/
theorem unmemo_eq_ok {c c' : Component} (h : c.unmemo = .ok c') :
    ∃ module body, unmemoList c.module = .ok module ∧ unmemoList c.body = .ok body ∧
      c' = { c with module, body } := by
  obtain ⟨module, hmodule, h⟩ := of_bind_eq_ok h
  obtain ⟨body, hbody, h⟩ := of_bind_eq_ok h
  cases h
  exact ⟨module, body, hmodule, hbody, rfl⟩

theorem fitsList_unmemoList (hw : w.Lifts) {ns ns' : List Node} (h : unmemoList ns = .ok ns')
    {spots : Nat → Spot} {i : Nat} (hns : fitsList w false spots i ns = true) :
    fitsList w false spots i ns' = true := by
  rw [fitsList_iff] at hns ⊢
  intro j n' hn'
  have hunmemo := forall₂_of_unmemoList h
  obtain ⟨hj, rfl⟩ := List.getElem?_eq_some_iff.1 hn'
  have hj' : j < ns.length := hunmemo.length_eq ▸ hj
  exact fits_unmemo hw (hunmemo.get hj' hj) _ (hns j _ (List.getElem?_eq_getElem hj'))

/-- Content stays where it may stand when the hooks of a component are taken
    apart. -/
theorem fits_hooks (hw : w.Lifts) {c d c' : Component} (hd : c.lowerEffects = .ok d)
    (hc' : d.unmemo = .ok c') (h : c.fits w false = true) : c'.fits w false = true := by
  obtain ⟨body, ms, lifecycle, hlower, -, rfl⟩ := lowerEffects_eq_ok hd
  obtain ⟨module', body', hmodule, hbody, rfl⟩ := unmemo_eq_ok hc'
  obtain ⟨hfits, hfits'⟩ := Bool.and_eq_true_iff.1 h
  refine Bool.and_eq_true_iff.2 ⟨fitsList_unmemoList hw hmodule hfits, ?_⟩
  have hlength := (forall₂_of_unmemoList hbody).length_eq
  have hlowered := (Effect.fitsBody_lower hw hlower hfits').1
  rw [fitsBody_eq false 0 body.length _ (Nat.zero_add _)] at hlowered
  rw [fitsBody_eq false 0 body.length _ (by rw [Nat.zero_add, ← hlength])]
  exact fitsList_unmemoList hw hbody hlowered

end Component

end Unhook
