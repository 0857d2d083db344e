import Mathlib.Data.List.Forall2
import Unhook.Proofs.Lifting
import Unhook.Proofs.Memoized
import Unhook.Proofs.Reading.Basic
import Unhook.Proofs.Reference
import Unhook.Proofs.Setter

/-!
# What takes the place of a tree

Compilation replaces trees by others that have no returns but those that were
there: `Node.Trims`. This is kept by putting nodes together, so it holds for
every walk that replaces nodes from the inside out, whatever it is about.
-/

namespace Unhook.Node

/-- What takes a place takes the place of something. -/
theorem exists_of_forall₂ {α β : Type} {R : α → β → Prop} {ps : List α} {qs : List β}
    (h : List.Forall₂ R ps qs) {q : β} (hq : q ∈ qs) : ∃ p ∈ ps, R p q := by
  induction h with
  | nil => cases hq
  | cons hpq _ ih =>
    rcases List.mem_cons.1 hq with rfl | hq
    · exact ⟨_, List.mem_cons_self, hpq⟩
    · obtain ⟨p, hp, hpq⟩ := ih hq
      exact ⟨p, List.mem_cons_of_mem _ hp, hpq⟩

/-- A node `m` that can take the place of `n`: its returns are returns of `n`, and
    it is the body of a function if `n` is. -/
structure Trims (n m : Node) : Prop where
  within : ∀ {r : Span → Prop}, Within r n → Within r m
  body : n.kind = .functionBody → m.kind = .functionBody

namespace Trims

variable {k k' : Kind} {s s' : Span} {ps qs : List Node} {n m : Node}

theorem refl (n : Node) : Trims n n := ⟨id, id⟩

theorem sound (h : Trims n m) (hn : n.Sound) : m.Sound :=
  (h.within (r := fun _ => True) (.of_node hn fun _ _ => trivial)).sound

theorem returns (h : Trims n m) (hn : n.Sound) : m.returns ⊆ n.returns :=
  fun _ ht => (h.within (.of_node hn fun _ => id)).returns _ ht

theorem confined (h : Trims n m) (hn : n.Sound ∧ n.Confined) : m.Sound ∧ m.Confined := by
  refine ⟨h.sound hn.1, ?_⟩
  rcases hn.2 with hbody | hnil
  · exact .inl (h.body hbody)
  · exact .inr (List.subset_nil.1 (hnil ▸ h.returns hn.1))

theorem withinList {r : Span → Prop} (h : List.Forall₂ Trims ps qs)
    (hps : ∀ p ∈ ps, Within r p) : Within r qs :=
  Within.list_iff.2 fun _ hq => by
    obtain ⟨p, hp, hpq⟩ := exists_of_forall₂ h hq
    exact hpq.within (hps p hp)

theorem apart (h : List.Forall₂ Trims ps qs) (hps : ∀ p ∈ ps, p.Sound) (hapart : Apart ps) :
    Apart qs := by
  induction h with
  | nil => exact .nil
  | cons hpq h ih =>
    obtain ⟨hp, hps⟩ := List.forall_mem_cons.1 hps
    obtain ⟨hfirst, hapart⟩ := List.pairwise_cons.1 hapart
    refine List.pairwise_cons.2 ⟨fun q hq s hs t ht => ?_, ih hps hapart⟩
    obtain ⟨p, hmem, hpq'⟩ := exists_of_forall₂ h hq
    exact hfirst p hmem s (hpq.returns hp hs) t (hpq'.returns (hps p hmem) ht)

/-- Parts can be replaced. -/
theorem parts (h : List.Forall₂ Trims ps qs) : Trims (.mk k s ps) (.mk k s qs) where
  within {r} hn := by
    have hps (p : Node) (hp : p ∈ ps) : p.Sound := hn.sound.of_mem hp
    refine .of_node (.node (fun q hq => ?_) (fun hk q hq => ?_) (fun hk q hq => ?_) fun hk => ?_) ?_
    · obtain ⟨p, hp, hpq⟩ := exists_of_forall₂ h hq
      exact hpq.sound (hps p hp)
    · obtain ⟨p, hp, hpq⟩ := exists_of_forall₂ h hq
      subst hk
      exact List.subset_nil.1 (hn.sound.given_back hp ▸ hpq.returns (hps p hp))
    · obtain ⟨p, hp, hpq⟩ := exists_of_forall₂ h hq
      exact (hpq.confined ⟨hps p hp, hn.sound.confined hk hp⟩).2
    · subst hk
      exact apart h hps hn.sound.apart
    · intro t ht
      cases hk : k.encloses with
      | true =>
        rw [returns_of_encloses hk] at ht
        cases ht
      | false =>
        by_cases hret : k = .returnStatement ∧ t = s
        · obtain ⟨rfl, rfl⟩ := hret
          exact hn.returns t (by rw [returns_returnStatement]; exact List.mem_cons_self)
        · obtain ⟨q, hq, ht⟩ : ∃ q ∈ qs, t ∈ q.returns := by
            by_cases hk' : k = .returnStatement
            · subst hk'
              rw [returns_returnStatement] at ht
              rcases List.mem_cons.1 ht with rfl | ht
              · exact absurd ⟨rfl, rfl⟩ hret
              · exact List.mem_flatMap.1 ht
            · exact mem_parts_of_mem_returns hk' ht
          obtain ⟨p, hp, hpq⟩ := exists_of_forall₂ h hq
          exact hn.returns t (mem_returns_of_mem_parts hk hp (hpq.returns (hps p hp) ht))
  body hk := hk

theorem map {f : Node → Node} (h : ∀ p ∈ ps, Trims p (f p)) :
    Trims (.mk k s ps) (.mk k s (ps.map f)) :=
  parts (List.forall₂_map_right_iff.2 (List.forall₂_same.2 h))

/-- A node that has none of the properties that matter can be replaced by another
    one of that sort. -/
theorem recast (hencloses : k.encloses = false) (hk : k.isReturning = false)
    (hk' : k'.isReturning = false) (h : List.Forall₂ Trims ps qs) :
    Trims (.mk k s ps) (.mk k' s' qs) where
  within {r} hn := by
    have : Off k'.isReturning := ⟨hk'⟩
    have : Within r qs := withinList h fun p hp => hn.of_mem hencloses hp
    infer_instance
  body h := by
    obtain rfl : k = .functionBody := h
    cases hk

/-- A node can be replaced by one without returns. -/
theorem of_quiet (hk : n.kind.isReturning = false) (h : n.Sound → Within nowhere m) :
    Trims n m where
  within hn := (h hn.sound).mono fun _ h => h.elim
  body h := by
    rw [h] at hk
    cases hk

/-- Some of the statements of a body can be left out. -/
theorem sublist (h : qs.Sublist ps) : Trims (.mk .functionBody s ps) (.mk .functionBody s qs) where
  within {r} hn := by
    refine .of_node (.node (fun q hq => hn.sound.of_mem (h.subset hq)) (fun h => by cases h)
      (fun h => by cases h) fun _ => hn.sound.apart.sublist h) fun t ht => ?_
    obtain ⟨q, hq, ht⟩ := mem_parts_of_mem_returns (by decide) ht
    exact hn.returns t (mem_returns_of_mem_parts rfl (h.subset hq) ht)
  body _ := rfl

end Trims

/-! ### Names and attributes -/

theorem renameList_eq (old new : Text) (ns : List Node) :
    renameList old new ns = ns.map (rename old new) := by
  induction ns with
  | nil => rfl
  | cons n ns ih => rw [renameList, ih, List.map_cons]

theorem trims_rename (old new : Text) (n : Node) : Trims n (n.rename old new) := by
  induction n with
  | mk k s ps ih =>
    have hps : List.Forall₂ Trims ps (ps.map (rename old new)) :=
      List.forall₂_map_right_iff.2 (List.forall₂_same.2 ih)
    rw [rename, renameList_eq]
    cases k
    case identifier | target | tagRef | typeName => exact .recast rfl rfl rfl hps
    all_goals exact .parts hps

theorem trims_renameAttributes (n : Node) : Trims n n.renameAttributes := by
  induction n with
  | mk k s ps ih =>
    have hps : List.Forall₂ Trims ps (renameAttributesList ps) := by
      rw [renameAttributesList_eq]
      exact List.forall₂_map_right_iff.2 (List.forall₂_same.2 ih)
    cases k
    case «attribute» space name =>
      cases space with
      | none => exact .recast rfl rfl rfl hps
      | some space => exact .parts hps
    all_goals exact .parts hps

/-! ### Blocks -/

section Blocks

variable {names : List Text} {R : Node → Node → Prop}

theorem within_placeholderNode (i : Nat) : Within nowhere (Block.placeholderNode i) :=
  inferInstanceAs (Within nowhere (Node.mk (.identifier _) _ []))

theorem forall₂_lowerListsList {ns : List Node}
    (h : ∀ n ∈ ns, ∀ bs, R n (n.lowerLists names bs).1) (bs : List Block) :
    List.Forall₂ R ns (lowerListsList names ns bs).1 := by
  induction ns generalizing bs with
  | nil => exact .nil
  | cons n ns ih =>
    exact .cons (h n List.mem_cons_self bs) (ih (fun m hm => h m (List.mem_cons_of_mem _ hm)) _)

/-- What is kept by replacing parts, and by replacing a call by the name of a block, holds
    between a tree and that tree with its lists made blocks. -/
theorem lowerLists_induction
    (parts : ∀ {k s ps qs}, List.Forall₂ R ps qs → R (mk k s ps) (mk k s qs))
    (placed : ∀ {k s ps} i, k.isExpressionCall = true → R (mk k s ps) (Block.placeholderNode i))
    (n : Node) (bs : List Block) : R n (n.lowerLists names bs).1 := by
  induction n generalizing bs with
  | mk k s ps ih =>
    have hps := forall₂_lowerListsList ih bs
    rw [lowerLists_mk]
    dsimp only
    generalize lowerListsList names ps bs = r at hps
    split
    · next b bs' hb =>
      split at hb
      · next hk => exact placed _ hk
      · cases hb
    · exact parts hps

theorem trims_lowerLists (n : Node) (bs : List Block) : Trims n (n.lowerLists names bs).1 := by
  refine lowerLists_induction .parts (fun {k s ps} i hk => ?_) n bs
  refine .of_quiet ?_ fun _ => within_placeholderNode i
  cases k
  case call => rfl
  all_goals cases hk

theorem forall₂_lowerChoicesList {a : Bool} {ns : List Node}
    (h : ∀ n ∈ ns, ∀ bs, R n (n.lowerChoices names a bs).1) (bs : List Block) :
    List.Forall₂ R ns (lowerChoicesList names a ns bs).1 := by
  induction ns generalizing bs with
  | nil => exact .nil
  | cons n ns ih =>
    exact .cons (h n List.mem_cons_self bs) (ih (fun m hm => h m (List.mem_cons_of_mem _ hm)) _)

/-- What is kept by replacing parts, and by putting the name of a block in a hole, holds
    between a tree and that tree with its choices made blocks. -/
theorem lowerChoices_induction
    (parts : ∀ {k s ps qs}, List.Forall₂ R ps qs → R (mk k s ps) (mk k s qs))
    (filled : ∀ {s ps} i, R (mk .container s ps) (mk .container s [Block.placeholderNode i]))
    (n : Node) (a : Bool) (bs : List Block) : R n (n.lowerChoices names a bs).1 := by
  induction n generalizing a bs with
  | mk k s ps ih =>
    have hps := forall₂_lowerChoicesList (fun n hn => ih n hn (a || k.isAttribute)) bs
    rw [lowerChoices_mk]
    dsimp only
    generalize lowerChoicesList names (a || k.isAttribute) ps bs = r at hps
    obtain ⟨qs, bs'⟩ := r
    dsimp only
    split
    · split
      · exact filled _
      · exact parts hps
    · exact parts hps

theorem trims_lowerChoices (n : Node) (a : Bool) (bs : List Block) :
    Trims n (n.lowerChoices names a bs).1 := by
  refine lowerChoices_induction .parts (fun i => .of_quiet rfl fun _ => ?_) n a bs
  have := within_placeholderNode i
  infer_instance

end Blocks

/-! ### Setters -/

section Setters

variable {setters : List (Text × Text)}

theorem trims_assigned (n : Node) : Trims n (n.assigned setters) := by
  induction n with
  | mk k s ps ih =>
    cases hv : (mk k s ps).sets? setters with
    | none =>
      rw [assigned_of_not_sets hv]
      exact .map ih
    | some v =>
      obtain ⟨o, pure, hk⟩ := kind_of_sets hv
      rw [kind_mk] at hk
      subst hk
      rw [assigned_of_sets hv]
      -- The arguments of the call, of which one is assigned, have its returns.
      have hargs {r : Span → Prop} (hn : Within r (mk (.call ⟨o, false⟩ pure) s ps)) {a : Node}
          (ha : a ∈ (ps.drop 2).map (assigned setters)) : Within r a := by
        obtain ⟨p, hp, rfl⟩ := List.mem_map.1 ha
        exact (ih p (List.mem_of_mem_drop hp)).within (hn.of_mem rfl (List.mem_of_mem_drop hp))
      refine ⟨fun {r} hn => ?_, fun hk => by cases hk⟩
      unfold setterCall
      split
      · exact inferInstanceAs (Within r (mk (.assign none) _ [mk (.target v) _ [],
          mk (.identifier _) _ []]))
      · next a ha =>
        have ha : Within r a := hargs hn (mem_of_first? ha)
        split
        · exact inferInstanceAs (Within r (mk (.assign none) _ [mk (.target v) _ [],
            mk (.call .plain false) _ [a, absent, mk (.identifier v) _ []]]))
        · exact inferInstanceAs (Within r (mk (.assign none) _ [mk (.target v) _ [], a]))

end Setters

/-! ### Holes -/

/-- Whatever holds between trees when it holds between their parts, and between a hole and
    what fills it, holds between a tree and that tree with its hole filled. -/
theorem fill_induction {R : Node → Node → Prop} {value : Node} (refl : ∀ n, R n n)
    (parts : ∀ {k s ps qs}, List.Forall₂ R ps qs → R (mk k s ps) (mk k s qs))
    (filled : ∀ {x s ps}, R (mk (.identifier x) s ps) value) (n : Node) :
    R n (Template.fill value n).1 := by
  have hlist (ns : List Node) (h : ∀ n ∈ ns, R n (Template.fill value n).1) :
      List.Forall₂ R ns (Template.fillList value ns).1 := by
    induction ns with
    | nil => exact .nil
    | cons n ns ih =>
      have hn := h n List.mem_cons_self
      unfold Template.fillList
      split
      · next m hm =>
        rw [hm] at hn
        exact .cons hn (List.forall₂_same.2 fun p _ => refl p)
      · next m hm =>
        rw [hm] at hn
        exact .cons hn (ih fun m hm => h m (List.mem_cons_of_mem _ hm))
  induction n with
  | mk k s ps ih =>
    cases k
    case identifier x =>
      unfold Template.fill
      split
      · exact filled
      · exact refl _
    all_goals exact parts (hlist ps ih)

/-- Filling a hole by what has no returns. -/
theorem trims_fill {value : Node} (hvalue : Within nowhere value) (n : Node) :
    Trims n (Template.fill value n).1 :=
  fill_induction .refl .parts (.of_quiet rfl fun _ => hvalue) n

section Substitution

variable {r : Text → Option Node}

theorem trims_substitute (hr : ∀ x v, r x = some v → Within nowhere v) (n : Node) :
    Trims n (n.substitute r) := by
  refine substitute_induction .map (fun {s e x v} hx => ?_) (fun {s e x v} hx => ?_) n
  · have := hr x v hx
    exact .of_quiet rfl fun _ => inferInstance
  · have := hr x v hx
    refine .of_quiet rfl fun _ => ?_
    unfold inHole
    split <;> infer_instance

end Substitution

/-! ### Hooks -/

theorem Memoizes.within {r : Span → Prop} {n e : Node} (h : Memoizes n e) (hn : Within r n) :
    Within r e := by
  have hquiet (he : e.Sound) (hnil : e.returns = []) : Within r e :=
    .of_node he fun t ht => by rw [hnil] at ht; cases ht
  cases h with
  | argument => exact hn.of_mem rfl (by simp)
  | @concise l pure s sa callee types ts ps r' b rest f hb =>
    have ha : (mk (.arrow f) sa [ts, ps, r', e]).Sound := hn.sound.of_mem (by simp)
    have he : e ∈ [ts, ps, r', e] := by simp
    exact hquiet (ha.of_mem he) ((ha.confined rfl he).resolve_left hb)
  | @returned l pure s sa sb sr callee types e rest parts ss k hk hbody he =>
    have ha : (mk k sa parts).Sound := hn.sound.of_mem (by simp)
    have hret := (ha.of_mem hbody).of_mem he
    exact hquiet (hret.of_mem List.mem_cons_self) (hret.given_back List.mem_cons_self)

theorem isReturning_of_isMemo {n : Node} (h : n.isMemo = true) : n.kind.isReturning = false := by
  obtain ⟨k, s, ps⟩ := n
  unfold isMemo expressionHook? at h
  split at h
  · next hk =>
    obtain rfl := hk
    rfl
  · cases h

theorem trims_unmemo {n m : Node} (h : n.unmemo = .ok m) : Trims n m := by
  refine unmemo_induction (fun _ _ h => .parts (h.imp fun _ _ h => h.2)) (fun hmemo => ?_)
    (fun hmemo he h => ?_) h
  · exact .of_quiet (isReturning_of_isMemo hmemo) fun _ =>
      inferInstanceAs (Within nowhere (mk (.identifier _) _ []))
  · refine ⟨fun hn => h.within (he.within hn), fun hbody => ?_⟩
    have hk := isReturning_of_isMemo hmemo
    rw [hbody] at hk
    cases hk

end Unhook.Node

namespace Unhook.Component

/-- What holds between a tree and what becomes of it in each part of lowering holds between
    the statements of a component and those of the lowered one. -/
theorem forall₂_lowerMarkup {R : Node → Node → Prop} (trans : ∀ {a b c}, R a b → R b c → R a c)
    (attributes : ∀ n : Node, R n n.renameAttributes)
    (lists : ∀ names (n : Node) bs, R n (n.lowerLists names bs).1)
    (choices : ∀ names (n : Node) bs, R n (n.lowerChoices names false bs).1) (c : Component) :
    List.Forall₂ R c.module c.lowerMarkup.module ∧ List.Forall₂ R c.body c.lowerMarkup.body := by
  have htrans {as bs cs : List Node} (h : List.Forall₂ R as bs) (h' : List.Forall₂ R bs cs) :
      List.Forall₂ R as cs := by
    induction h generalizing cs with
    | nil => exact h'
    | cons hab _ ih =>
      cases h' with
      | cons hbc h' => exact .cons (trans hab hbc) (ih h')
  have hattributes (ss : List Node) : List.Forall₂ R ss (Node.renameAttributesList ss) := by
    rw [Node.renameAttributesList_eq, List.forall₂_map_right_iff]
    exact List.forall₂_same.2 fun s _ => attributes s
  have hlists (names : List Text) (ss : List Node) (bs : List Block) :
      List.Forall₂ R ss (Node.lowerListsList names ss bs).1 :=
    Node.forall₂_lowerListsList (fun s _ => lists names s) bs
  have hchoices (names : List Text) (ss : List Node) (bs : List Block) :
      List.Forall₂ R ss (Node.lowerChoicesList names false ss bs).1 :=
    Node.forall₂_lowerChoicesList (fun s _ => choices names s) bs
  exact ⟨htrans (hattributes _) (htrans (hlists _ _ _) (hchoices _ _ _)),
    htrans (hattributes _) (htrans (hlists _ _ _) (hchoices _ _ _))⟩

end Unhook.Component
