import Unhook.Proofs.Ending
import Unhook.Proofs.Following
import Unhook.Proofs.Removal
import Unhook.Proofs.Script

/-!
# Statements that pass through compilation

Every step is about some nodes: markup, hooks, names that stand for blocks. A
statement that has none of them is the same tree in the end, unless it is taken
for the export, declares state, is an effect, or brings up the parameter, a
setter or a name that is followed.

Steps also put in statements, and leave some out. So what passes through is told
by sublists: the statements that pass are, in their order, among those that are
left.

* `Node.isUntouched`: the trees that no step on trees is about;
* `Component.passes`: the statements of the body that no step is about;
* `Component.untouched_statements_pass`: what passes through, and how it is
  written.
-/

namespace Unhook

/-- Whether nodes of this kind are markup, or parts of it that are given another form. -/
def Kind.isMarkupPart : Kind → Bool
  | .element | .fragment | .container | .attribute _ _ => true
  | _ => false

namespace Node

/-- Whether a tree has no markup, no call of a memoizing hook and no name that stands
    for a block. -/
def isUntouched (n : Node) : Bool :=
  !n.any fun m => m.kind.isMarkupPart || m.isMemo || m.isPlaceholder

theorem isUntouched_mk {k : Kind} {s : Span} {ps : List Node} :
    (mk k s ps).isUntouched = true ↔
      (k.isMarkupPart = false ∧ (mk k s ps).isMemo = false ∧ (mk k s ps).isPlaceholder = false) ∧
        ∀ p ∈ ps, p.isUntouched = true := by
  simp only [isUntouched, any_mk, anyList_eq, Bool.not_eq_true', Bool.or_eq_false_iff,
    List.any_eq_false, Bool.not_eq_true, kind_mk, and_assoc]

namespace Untouched

variable {k : Kind} {s : Span} {ps : List Node} {n : Node}

theorem parts (h : (Node.mk k s ps).isUntouched = true) : ∀ p ∈ ps, p.isUntouched = true :=
  (isUntouched_mk.1 h).2

theorem isMarkup (h : n.isUntouched = true) : n.isMarkup = false := by
  obtain ⟨k, s, ps⟩ := n
  have hk := (isUntouched_mk.1 h).1.1
  cases k
  case element | fragment => cases hk
  all_goals rfl

theorem isMarkupValue (h : n.isUntouched = true) : n.isMarkupValue = false := by
  have hmarkup := isMarkup h
  obtain ⟨k, s, ps⟩ := n
  exact Bool.or_eq_false_iff.2 ⟨hmarkup, (isUntouched_mk.1 h).1.2.2⟩

/-- What is kept one by one is kept. -/
theorem eq_of_forall₂ {ms : List Node}
    (h : List.Forall₂ (fun p m => p.isUntouched = true → m = p) ps ms)
    (hps : ∀ p ∈ ps, p.isUntouched = true) : ms = ps := by
  induction h with
  | nil => rfl
  | cons hpm _ ih =>
    obtain ⟨hp, hps⟩ := List.forall_mem_cons.1 hps
    rw [hpm hp, ih hps]

/-- A walk that keeps the parts of a node keeps the node. -/
theorem mk_map {f : Node → Node} (h : ∀ p ∈ ps, f p = p) :
    Node.mk k s (ps.map f) = Node.mk k s ps := by
  rw [List.map_congr_left h, List.map_id']

theorem renameAttributes (h : n.isUntouched = true) : n.renameAttributes = n := by
  induction n with
  | mk k s ps ih =>
    have hmap := mk_map (k := k) (s := s) fun p hp => ih p hp (parts h p hp)
    rw [← renameAttributesList_eq] at hmap
    have hk := (isUntouched_mk.1 h).1.1
    cases k
    case «attribute» => cases hk
    all_goals exact hmap

theorem body (h : n.isUntouched = true) : n.body.isUntouched = true := by
  unfold Node.body
  split
  · exact parts h _ (by simp)
  · exact parts h _ (by simp)
  · rfl

/-- A function without markup renders none. -/
theorem root? (h : n.isUntouched = true) : Each.root? n = none := by
  have hbody := body h
  unfold Each.root?
  split
  · split
    · next sr e hstatements =>
      have hmem : Node.mk .returnStatement sr [e] ∈ n.body.statements := by simp [hstatements]
      have he : e.isUntouched = true := by
        generalize n.body = b at hbody hmem
        obtain ⟨k, sp, ps⟩ := b
        unfold statements at hmem
        split at hmem
        · exact parts (parts hbody _ (List.mem_filter.1 hmem).1) _ List.mem_cons_self
        · cases hmem
      simp [isMarkup he]
    · rfl
  · simp [isMarkup hbody]

theorem block? (h : (Node.mk k s ps).isUntouched = true) (names : List Text) (bs : List Block) :
    Each.block? names (.mk k s ps) bs = none := by
  unfold Each.block?
  cases hmap : (Node.mk k s ps).mapCall? with
  | none => rfl
  | some m =>
    have hcallback : m.2.isUntouched = true := by
      unfold mapCall? at hmap
      split at hmap
      · next heq =>
        cases heq
        split at hmap
        · cases hmap
          exact parts h _ (by simp)
        · cases hmap
      · cases hmap
    simp [root? hcallback]

theorem lowerLists (h : n.isUntouched = true) (names : List Text) (bs : List Block) :
    (n.lowerLists names bs).1 = n := by
  induction n generalizing bs with
  | mk k s ps ih =>
    have hlist : (lowerListsList names ps bs).1 = ps :=
      eq_of_forall₂ (forall₂_lowerListsList (fun p hp bs h => ih p hp h bs) bs) (parts h)
    rw [lowerLists_mk]
    dsimp only
    rw [hlist, block? h, ite_self]

theorem lowerChoices (h : n.isUntouched = true) (names : List Text) (a : Bool) (bs : List Block) :
    (n.lowerChoices names a bs).1 = n := by
  induction n generalizing a bs with
  | mk k s ps ih =>
    have hlist : (lowerChoicesList names (a || k.isAttribute) ps bs).1 = ps :=
      eq_of_forall₂ (forall₂_lowerChoicesList (fun p hp bs h => ih p hp h _ bs) bs) (parts h)
    have hk := (isUntouched_mk.1 h).1.1
    rw [lowerChoices_mk]
    dsimp only
    rw [hlist]
    split
    · cases hk
    · rfl

theorem isMemo (h : n.isUntouched = true) : n.isMemo = false := by
  obtain ⟨k, s, ps⟩ := n
  exact (isUntouched_mk.1 h).1.2.1

theorem unmemo {m : Node} (hm : n.unmemo = .ok m) (h : n.isUntouched = true) : m = n := by
  revert h
  refine unmemo_induction (motive := fun n m => n.isUntouched = true → m = n) ?_ ?_ ?_ hm
  · intro k s ps ms _ _ hms h
    rw [eq_of_forall₂ (hms.imp fun _ _ h => h.2) (parts h)]
  · intro n hmemo h
    rw [isMemo h] at hmemo
    cases hmemo
  · intro n e m hmemo _ _ h
    rw [isMemo h] at hmemo
    cases hmemo

theorem substitute (h : n.isUntouched = true) (r : Text → Option Node) : n.substitute r = n := by
  induction n with
  | mk k s ps ih =>
    have hk := (isUntouched_mk.1 h).1.1
    have hne : k ≠ .element ∧ k ≠ .fragment ∧ k ≠ .container := by
      refine ⟨?_, ?_, ?_⟩ <;> rintro rfl <;> cases hk
    rw [substitute_mk hne]
    exact mk_map fun p hp => ih p hp (parts h p hp)

theorem unlabeled (h : n.isUntouched = true) : n.unlabeled.isUntouched = true := by
  unfold Node.unlabeled
  split
  · exact parts h _ List.mem_cons_self
  · exact h

/-- A statement without markup gives none to a name. -/
theorem ofStatement (h : n.isUntouched = true) : MarkupTable.ofStatement n = [] := by
  refine List.eq_nil_iff_forall_not_mem.2 fun q hq => ?_
  obtain ⟨hv, k, sp, ds, k', sp', ps, hu, -, hd, -, hmem⟩ := MarkupTable.of_mem_ofStatement hq
  have hunlabeled := unlabeled h
  rw [hu] at hunlabeled
  rw [isMarkupValue (parts (parts hunlabeled _ hd) _ hmem)] at hv
  cases hv

theorem withoutMarkup (h : n.isUntouched = true) : MarkupTable.withoutMarkup n = some n := by
  rw [MarkupTable.withoutMarkup_eq, ofStatement h]
  rfl

end Untouched

/-! ### Names -/

theorem mentions_eq_false {x : Text} {k : Kind} {s : Span} {ps : List Node} :
    (mk k s ps).mentions x = false ↔ k.reference? ≠ some x ∧ ∀ p ∈ ps, p.mentions x = false := by
  simp [mentions_mk]

theorem rename_of_not_mentions {old new : Text} {n : Node} (h : n.mentions old = false) :
    n.rename old new = n := by
  induction n with
  | mk k s ps ih =>
    obtain ⟨hk, hps⟩ := mentions_eq_false.1 h
    have hkind : k.rename old new = k := by
      unfold Kind.rename
      dsimp only
      split <;> simp_all [Kind.reference?]
    rw [rename, renameList_eq, hkind]
    exact Untouched.mk_map fun p hp => ih p hp (hps p hp)

section Setters

variable {setters : List (Text × Text)}

/-- A tree that mentions no setter calls none. -/
theorem callsSetter_of_not_mentions {n : Node} (h : ∀ p ∈ setters, n.mentions p.1 = false) :
    n.callsSetter setters = false := by
  induction n with
  | mk k s ps ih =>
    have hps (q : Node) (hq : q ∈ ps) : ∀ p ∈ setters, q.mentions p.1 = false :=
      fun p hp => (mentions_eq_false.1 (h p hp)).2 q hq
    rw [callsSetter_mk, Bool.or_eq_false_iff, List.any_eq_false]
    refine ⟨Option.isSome_eq_false_iff.2 ?_, fun q hq => by simp [ih q hq (hps q hq)]⟩
    refine Option.isNone_iff_eq_none.2 (Option.eq_none_iff_forall_ne_some.2 fun v hv => ?_)
    unfold sets? at hv
    split at hv
    · next callee _ _ heq =>
      cases heq
      obtain ⟨x, hx, hlookup⟩ := Option.bind_eq_some_iff.1 hv
      obtain ⟨l, r, hsetters, -⟩ := List.lookup_eq_some_iff.1 hlookup
      have hcallee := hps callee (by simp) (x, v) (by simp [hsetters])
      obtain ⟨k, s, qs⟩ := callee
      obtain rfl := identifier?_eq_some.1 hx
      exact (mentions_eq_false.1 hcallee).1 rfl
    · cases hv

theorem assigned_of_not_callsSetter {n : Node} (h : n.callsSetter setters = false) :
    n.assigned setters = n := by
  induction n with
  | mk k s ps ih =>
    rw [callsSetter_mk, Bool.or_eq_false_iff, List.any_eq_false] at h
    rw [assigned_of_not_sets (by simpa using h.1)]
    exact Untouched.mk_map fun p hp => ih p hp (by simpa using h.2 p hp)

end Setters

end Node

/-! ### Statements that are left -/

section Sublists

variable {P : Node → Bool} {ss ts us : List Node}

/-- Statements that are kept one by one are left. -/
theorem filter_sublist_of_forall₂ (h : List.Forall₂ (fun s t => P s = true → t = s) ss ts) :
    (ss.filter P).Sublist ts := by
  induction h with
  | nil => exact .slnil
  | @cons s t ss ts hst _ ih =>
    by_cases hs : P s = true
    · rw [List.filter_cons_of_pos hs, hst hs]
      exact ih.cons_cons s
    · rw [List.filter_cons_of_neg hs]
      exact ih.cons t

theorem filter_sublist_filterMap {f : Node → Option Node} (h : ∀ s, P s = true → f s = some s) :
    (ss.filter P).Sublist (ss.filterMap f) := by
  have hkept : (ss.filter P).filterMap f = ss.filter P := by
    rw [List.filterMap_congr fun s hs => h s (List.mem_filter.1 hs).2, List.filterMap_some]
  rw [← hkept]
  exact List.filter_sublist.filterMap f

/-- What is left by two steps is left by both together. -/
theorem filter_sublist_trans (h : (ss.filter P).Sublist ts) (h' : (ts.filter P).Sublist us) :
    (ss.filter P).Sublist us := by
  have hfilter := h.filter P
  rw [List.filter_filter] at hfilter
  simp only [Bool.and_self] at hfilter
  exact hfilter.trans h'

/-- Statements that are kept where they stand are left. -/
theorem filter_sublist_of_getElem?
    (h : ∀ (i : Nat) s, ss[i]? = some s → P s = true → ts[i]? = some s) :
    (ss.filter P).Sublist ts := by
  induction ss generalizing ts with
  | nil => exact List.nil_sublist ts
  | cons s ss ih =>
    have hrest : (ss.filter P).Sublist ts.tail := ih fun i s hs hp => by
      rw [List.getElem?_tail]
      exact h (i + 1) s hs hp
    by_cases hs : P s = true
    · have hhead := h 0 s rfl hs
      have hts : ts = s :: ts.tail := List.eq_cons_of_mem_head? (List.head?_eq_getElem?.trans hhead)
      rw [List.filter_cons_of_pos hs, hts]
      exact hrest.cons_cons s
    · rw [List.filter_cons_of_neg hs]
      exact hrest.trans (List.tail_sublist ts)

end Sublists

namespace Effect

/-- Effects that come before a statement are replaced before it. -/
theorem lower_concat {P : Node → Bool} (hP : ∀ s, P s = true → ofStatement? s = none)
    {ss ts : List Node} {r : Node} {ms : List Lifecycle} (hr : ofStatement? r = none)
    (h : lower (ss ++ [r]) = .ok (ts, ms)) :
    ∃ ts', ts = ts' ++ [r] ∧ (ss.filter P).Sublist ts' := by
  induction ss generalizing ts ms with
  | nil =>
    rw [List.nil_append, lower, hr] at h
    cases h
    exact ⟨[], rfl, .slnil⟩
  | cons s ss ih =>
    rw [List.cons_append] at h
    unfold lower at h
    split at h
    · obtain ⟨⟨rest, ms'⟩, hlower, h⟩ := of_bind_eq_ok h
      cases h
      obtain ⟨ts', rfl, hsub⟩ := ih hlower
      refine ⟨s :: ts', rfl, ?_⟩
      rw [List.filter_cons]
      split
      · exact hsub.cons_cons s
      · exact hsub.cons s
    · next hook call hcall =>
      obtain ⟨e, -, h⟩ := of_bind_eq_ok h
      obtain ⟨⟨rest, ms'⟩, hlower, h⟩ := of_bind_eq_ok h
      cases h
      obtain ⟨ts', rfl, hsub⟩ := ih hlower
      refine ⟨_ ++ ts', (List.append_assoc _ _ _).symm, ?_⟩
      have hs : ¬P s = true := fun hs => by
        rw [hP s hs] at hcall
        cases hcall
      rw [List.filter_cons_of_neg hs]
      exact hsub.trans (List.sublist_append_right _ _)

end Effect

namespace Component

variable {typescript : Bool} {c c' d : Component}

/-- Whether a statement of the body is one that no step is about: beside having no
    node that is replaced, it mentions neither the parameter that takes all props
    nor a setter, reads no name that is followed, and is neither a declaration of
    state nor an effect. -/
def passes (c : Component) (s : Node) : Bool :=
  s.isUntouched &&
    (match formOf c.params with
      | .wholeObject x => !s.mentions x
      | _ => true) &&
    c.setters.all (fun p => !s.mentions p.1) && !s.reads c.tracked &&
    (match StateDeclaration.ofStatement? s with
      | .ok (some _) => false
      | _ => true) &&
    (Effect.ofStatement? s).isNone

/-- The statements of the body without the return, as far as they satisfy `P`, are
    left. -/
def Leaves (P : Node → Bool) (ss ts : List Node) : Prop :=
  (ss.dropLast.filter P).Sublist ts.dropLast

theorem leaves_of_forall₂ {P : Node → Bool} {ss ts : List Node}
    (h : List.Forall₂ (fun s t => P s = true → t = s) ss ts) : Leaves P ss ts := by
  refine filter_sublist_of_forall₂ ?_
  rw [List.dropLast_eq_take, List.dropLast_eq_take, ← h.length_eq]
  exact List.forall₂_take _ h

theorem Leaves.trans {P : Node → Bool} {ss ts us : List Node} (h : Leaves P ss ts)
    (h' : Leaves P ts us) : Leaves P ss us := filter_sublist_trans h h'

/-- What it means that a statement passes. -/
theorem passes_iff {s : Node} : c.passes s = true ↔ s.isUntouched = true ∧
    (∀ x, formOf c.params = .wholeObject x → s.mentions x = false) ∧
    (∀ p ∈ c.setters, s.mentions p.1 = false) ∧ s.reads c.tracked = false ∧
    (∀ sd, StateDeclaration.ofStatement? s ≠ .ok (some sd)) ∧ Effect.ofStatement? s = none := by
  have hform : (match formOf c.params with
      | .wholeObject x => !s.mentions x
      | _ => true) = true ↔ ∀ x, formOf c.params = .wholeObject x → s.mentions x = false := by
    cases formOf c.params <;> simp
  have hstate : (match StateDeclaration.ofStatement? s with
      | .ok (some _) => false
      | _ => true) = true ↔ ∀ sd, StateDeclaration.ofStatement? s ≠ .ok (some sd) := by
    rcases StateDeclaration.ofStatement? s with _ | _ | _ <;> simp
  simp only [passes, Bool.and_eq_true, hform, hstate, List.all_eq_true, Bool.not_eq_true',
    Option.isNone_iff_eq_none, and_assoc]

theorem passes_congr (hparams : d.params = c.params) (hsetters : d.setters = c.setters)
    (htracked : d.tracked = c.tracked) : d.passes = c.passes := by
  funext s
  rw [passes, passes, hparams, hsetters, htracked]

theorem renamed_of_not_mentions {s : Node}
    (h : ∀ x, formOf c.params = .wholeObject x → s.mentions x = false) : c.renamed s = s := by
  unfold renamed
  split
  · next x _ _ hparam => exact Node.rename_of_not_mentions (h x (by simp [formOf, hparam]))
  · rfl

section Steps

variable {options : Options} {source : Text} {length : Nat} {module : List Node} {b : Component}
  {P : Node → Bool}

/-- Binding props and extracting state leave the statements that pass. -/
theorem leaves_extractState (hc : ofModule length module = .ok c)
    (hb : c.bindProps typescript = .ok b) (hd : b.extractState typescript = .ok d)
    (hP : ∀ s, P s = true → d.passes s = true) : Leaves P c.body d.body := by
  obtain ⟨c₁, aliases, n, h₁, hb'⟩ := bindProps_eq_ok hb
  obtain ⟨-, hempty, -⟩ := ofModule_fresh hc
  have hbound := h₁.bound hb'
  have hgrows := (extractState_tracked (hbound.setters.trans hempty) hd).1
  have hparams : d.params = c.params :=
    (extractState_sameFrame hd).params.trans (bindProps_bindsFields hb).params
  have hlength : d.body.length = aliases.length + c.body.length := by
    rw [extractState_length hd, hbound.length]
  have hkept (i : Nat) (s : Node) (hs : c.body.dropLast[i]? = some s) (hp : P s = true) :
      d.body[aliases.length + i]? = some s := by
    obtain ⟨-, hmention, hsetters, hreads, hstate, -⟩ := passes_iff.1 (hP s hp)
    have hi : i < c.body.length - 1 := by
      simpa using (List.getElem?_eq_some_iff.1 hs).1
    rw [List.getElem?_dropLast, if_pos hi] at hs
    have hrenamed : c.renamed s = s := renamed_of_not_mentions (hparams ▸ hmention)
    obtain ⟨t, ht, hcases⟩ := labelled_or_kept hc h₁ hb' hd hs (Nat.ne_of_lt hi)
      (by rwa [hrenamed])
    have hcalls := Node.callsSetter_of_not_mentions hsetters
    rw [hrenamed, Node.assigned_of_not_callsSetter hcalls] at hcases
    rcases hcases with ⟨-, -, hreason, -⟩ | ⟨rfl, -⟩
    · -- There is no reason to label it.
      rcases hreason with hread | hread | hcall
      · rw [Node.reads_mono hgrows s hread] at hreads
        cases hreads
      · rw [hread] at hreads
        cases hreads
      · rw [hcall] at hcalls
        cases hcalls
    · exact ht
  have hsub : (c.body.dropLast.filter P).Sublist (d.body.dropLast.drop aliases.length) := by
    refine filter_sublist_of_getElem? fun i s hs hp => ?_
    have hi : i < c.body.length - 1 := by
      simpa using (List.getElem?_eq_some_iff.1 hs).1
    rw [List.getElem?_drop, List.getElem?_dropLast, if_pos (by omega)]
    exact hkept i s hs hp
  exact hsub.trans (List.drop_sublist _ _)

/-- Lowering markup leaves the statements of the module and of the body that have none. -/
theorem leaves_lowerMarkup (hP : ∀ s, P s = true → s.isUntouched = true)
    (c : Component) : (c.module.filter P).Sublist c.lowerMarkup.module ∧
      Leaves P c.body c.lowerMarkup.body := by
  have hattributes (ss : List Node) :
      List.Forall₂ (fun s t => P s = true → t = s) ss (Node.renameAttributesList ss) := by
    rw [Node.renameAttributesList_eq, List.forall₂_map_right_iff]
    exact List.forall₂_same.2 fun s _ hs => Node.Untouched.renameAttributes (hP s hs)
  have hlists (names : List Text) (ss : List Node) (bs : List Block) :
      List.Forall₂ (fun s t => P s = true → t = s) ss (Node.lowerListsList names ss bs).1 :=
    Node.forall₂_lowerListsList (fun s _ bs hs => Node.Untouched.lowerLists (hP s hs) names bs) bs
  have hchoices (names : List Text) (ss : List Node) (bs : List Block) :
      List.Forall₂ (fun s t => P s = true → t = s) ss (Node.lowerChoicesList names false ss bs).1 :=
    Node.forall₂_lowerChoicesList
      (fun s _ bs hs => Node.Untouched.lowerChoices (hP s hs) names false bs) bs
  refine ⟨?_, ?_⟩
  · exact filter_sublist_trans (filter_sublist_of_forall₂ (hattributes _))
      (filter_sublist_trans (filter_sublist_of_forall₂ (hlists _ _ _))
        (filter_sublist_of_forall₂ (hchoices _ _ _)))
  · exact (leaves_of_forall₂ (hattributes _)).trans
      ((leaves_of_forall₂ (hlists _ _ _)).trans (leaves_of_forall₂ (hchoices _ _ _)))

/-- Taking hooks apart leaves the statements that have none. -/
theorem leaves_hooks (hP : ∀ s, P s = true → s.isUntouched = true)
    (heffect : ∀ s, P s = true → Effect.ofStatement? s = none) (hc : c.Ended)
    (hd : c.lowerEffects = .ok d) (hc' : d.unmemo = .ok c') : Leaves P c.body c'.body := by
  obtain ⟨body, ms, lifecycle, hlower, -, rfl⟩ := lowerEffects_eq_ok hd
  obtain ⟨module', body', hmodule, hbody, rfl⟩ := unmemo_eq_ok hc'
  obtain ⟨init, sp, e, hinit, -⟩ := hc.eq_append
  rw [hinit] at hlower
  obtain ⟨ss, rfl, hsub⟩ := Effect.lower_concat heffect rfl hlower
  have heffects : Leaves P c.body (ss ++ [Node.mk .returnStatement sp [e]]) := by
    rw [Leaves, hinit, List.dropLast_concat, List.dropLast_concat]
    exact hsub
  refine heffects.trans (leaves_of_forall₂ ?_)
  exact (Node.forall₂_of_unmemoList hbody).imp fun s t h hs => Node.Untouched.unmemo h (hP s hs)

theorem fillLast_concat (t : MarkupTable) (ss : List Node) (r : Node) :
    fillLast t (ss ++ [r]) = ss ++ [fillReturn t r] := by
  induction ss with
  | nil => rfl
  | cons s ss ih =>
    rw [List.cons_append, List.cons_append, ← ih]
    cases ss <;> rfl

/-- Showing markup variables leaves the statements that have no markup. -/
theorem leaves_inlineMarkup (hP : ∀ s, P s = true → s.isUntouched = true)
    (hc : c.Ended) : (c.module.filter P).Sublist c.inlineMarkup.module ∧
      Leaves P c.body c.inlineMarkup.body := by
  have hfill (s : Node) (hs : P s = true) :
      MarkupTable.withoutMarkup (s.substitute c.markupTable.resolve) = some s := by
    rw [Node.Untouched.substitute (hP s hs), Node.Untouched.withoutMarkup (hP s hs)]
  have hleft (ss : List Node) : (ss.filter P).Sublist
      ((Node.substituteList c.markupTable.resolve ss).filterMap MarkupTable.withoutMarkup) := by
    rw [Node.substituteList_eq, List.filterMap_map]
    exact filter_sublist_filterMap hfill
  refine ⟨hleft c.module, ?_⟩
  obtain ⟨init, sp, e, hinit, -⟩ := hc.eq_append
  obtain ⟨r, hr⟩ : ∃ r, c.inlineMarkup.body =
      (Node.substituteList c.markupTable.resolve init).filterMap MarkupTable.withoutMarkup ++
        [r] := by
    show ∃ r, (Node.substituteList _ (fillLast _ c.body)).filterMap _ = _
    rw [hinit, fillLast_concat, Node.substituteList_eq, List.map_append, List.filterMap_append,
      ← Node.substituteList_eq]
    exact ⟨_, rfl⟩
  rw [Leaves, hr, hinit, List.dropLast_concat, List.dropLast_concat]
  exact hleft init

end Steps

theorem ofModule_module {length : Nat} {module : List Node} (h : ofModule length module = .ok c) :
    c.module = module.filter fun s => !c.exportSteps.contains s.span := by
  obtain ⟨e, -, -, rfl, -⟩ := exists_export_of_ofModule h
  rfl

/-- Statements pass through compilation. Of the statements of the module that were not
    taken for the export, those without markup, memoizing hooks and names of blocks
    are the same trees when all steps are done; so are the statements of the
    component before the return that no step is about (`passes`). They keep their
    order, and the script has them as they are printed, in this order: a statement
    of the module without `export` in front of it, and not at all if it imports from
    the framework, exports names or is a default export. -/
theorem untouched_statements_pass {options : Options} {source : Text} {doc : Document}
    (h : compile? options source = .ok doc) :
    ∃ module c d, parse options source = .ok module ∧ ofModule source.byteLength module = .ok c ∧
      c.module = module.filter (fun s => !c.exportSteps.contains s.span) ∧
      compileThrough options Pass.all source = .ok d ∧
      (c.module.filter Node.isUntouched).Sublist d.module ∧
      (c.body.dropLast.filter d.passes).Sublist d.body.dropLast ∧
      ((c.module.filter Node.isUntouched).filterMap Document.moduleItem? ++
        (c.body.dropLast.filter d.passes).map Node.printStatement).Sublist doc.script ∧
      ∀ s t, Document.moduleItem? s = some t ↔ s.isLeftOut = false ∧
        (s.kind = .exportDeclaration ∧ s.printStatement = "export " ++ t ∨
          s.printStatement = t ∧
            (s.kind = .exportDeclaration → Text.after? "export " t = none)) := by
  obtain ⟨d, hd, h⟩ := of_bind_eq_ok h
  obtain ⟨module, c, b, e, f, g, hmodule, hc, hb, he, hf, hg, rfl⟩ := compileThrough_all_eq_ok hd
  have hended := ended_located hmodule hc
  have heended := (hended.bindProps hb).extractState he
  have hgended := (heended.lowerMarkup.lowerEffects hf).unmemo hg
  have hpasses : g.inlineMarkup.passes = e.passes := by
    have hmarkup : e.lowerMarkup.passes = e.passes := passes_congr rfl rfl rfl
    have heffects : f.passes = e.lowerMarkup.passes := by
      obtain ⟨body, ms, lifecycle, -, -, rfl⟩ := lowerEffects_eq_ok hf
      exact passes_congr rfl rfl rfl
    have hmemo : g.passes = f.passes := by
      obtain ⟨module', body', -, -, rfl⟩ := unmemo_eq_ok hg
      exact passes_congr rfl rfl rfl
    have hinline : g.inlineMarkup.passes = g.passes := passes_congr rfl rfl rfl
    rw [hinline, hmemo, heffects, hmarkup]
  have huntouched (s : Node) (hs : g.inlineMarkup.passes s = true) : s.isUntouched = true :=
    (passes_iff.1 hs).1
  have heffect (s : Node) (hs : g.inlineMarkup.passes s = true) : Effect.ofStatement? s = none :=
    (passes_iff.1 hs).2.2.2.2.2
  have hmoduleLeft : (c.module.filter Node.isUntouched).Sublist g.inlineMarkup.module := by
    rw [← (bindProps_bindsFields hb).module, ← (extractState_sameFrame he).module]
    refine filter_sublist_trans (leaves_lowerMarkup (fun _ => id) e).1 ?_
    refine filter_sublist_trans ?_ (leaves_inlineMarkup (fun _ => id) hgended).1
    obtain ⟨body, ms, lifecycle, -, -, rfl⟩ := lowerEffects_eq_ok hf
    obtain ⟨module', body', hmodule', -, rfl⟩ := unmemo_eq_ok hg
    exact filter_sublist_of_forall₂
      ((Node.forall₂_of_unmemoList hmodule').imp fun s t h hs => Node.Untouched.unmemo h hs)
  have hbodyLeft : (c.body.dropLast.filter g.inlineMarkup.passes).Sublist
      g.inlineMarkup.body.dropLast :=
    (leaves_extractState hc hb he fun s hs => hpasses ▸ hs).trans
      ((leaves_lowerMarkup huntouched e).2.trans
        ((leaves_hooks huntouched heffect heended.lowerMarkup hf hg).trans
          (leaves_inlineMarkup huntouched hgended).2))
  refine ⟨module, c, g.inlineMarkup, hmodule, hc, ofModule_module hc, hd, hmoduleLeft, hbodyLeft,
    ?_, fun s t => Document.moduleItem?_eq_some_iff⟩
  obtain ⟨script, markup, hscript, -, rfl⟩ := document_eq_ok h
  obtain ⟨setters, -, hscript⟩ := of_bind_eq_ok hscript
  cases hscript
  -- The items of the module and of the body stand between others.
  refine List.Sublist.trans (List.Sublist.append ?_ (hbodyLeft.map _)) (List.sublist_append_left _ _)
  refine List.Sublist.trans ?_ (List.sublist_append_left _ _)
  exact (hmoduleLeft.filterMap _).trans (List.sublist_append_right _ _)

/-- A component with statements that pass, around one that follows a prop. -/
def sizingSource : Text :=
  "export const unit = size('px');
  export default (\x7b n \x7d) => \x7b
    const one = 1;
    const next = n + one;
    const twice = () => n * 2;
    return <p>\x7btwice()\x7d</p>;
  \x7d;"

theorem sizing_statements_pass : ∃ doc, compile? {} sizingSource = .ok doc ∧
    [("const unit = size('px');" : Text), ("const one = 1;" : Text),
      ("const twice = () => n * 2;" : Text)].Sublist doc.script := by
  have hsource : ((parse {} sizingSource).toOption.bind fun module =>
      (ofModule sizingSource.byteLength module).toOption.bind fun c =>
      (Pass.all.foldlM (Pass.run false) c).toOption.bind fun d =>
      (d.document {}).toOption.map fun _ =>
        (c.module.filter Node.isUntouched).filterMap Document.moduleItem? ++
          (c.body.dropLast.filter d.passes).map Node.printStatement) =
      some [("const unit = size('px');" : Text), ("const one = 1;" : Text),
        ("const twice = () => n * 2;" : Text)] := by
    rw [(by apply String.toList_ofList : sizingSource = _)]
    decide +kernel
  obtain ⟨module, hmodule, hsource⟩ := of_toOption_bind hsource
  obtain ⟨c, hc, hsource⟩ := of_toOption_bind hsource
  obtain ⟨d, hd, hsource⟩ := of_toOption_bind hsource
  obtain ⟨doc, hdoc, hsource⟩ := of_toOption_map hsource
  have hall := (compileThrough_of_ofModule hmodule hc Pass.all).trans hd
  have hcompile : compile? {} sizingSource = .ok doc := by
    rw [compile?, hall]
    exact hdoc
  obtain ⟨module', c', d', hmodule', hc', -, hd', -, -, hscript, -⟩ :=
    untouched_statements_pass hcompile
  cases hmodule.symm.trans hmodule'
  cases hc.symm.trans hc'
  cases hall.symm.trans hd'
  exact ⟨doc, hcompile, hsource ▸ hscript⟩

/-- A default export that is not the component is not written, though it is none of
    the statements that the export was found through. -/
theorem second_default_export_left_out :
    ((compileThrough { typescript := true } []
        "export default () => <p/>;\nexport default 5;").toOption.bind fun c =>
      (compile? { typescript := true }
        "export default () => <p/>;\nexport default 5;").toOption.map fun doc =>
        (c.module.map fun s => (s.isUntouched, s.printStatement), doc.script)) =
      some ([(true, ("export default 5;" : Text))], []) := by
  decide +kernel

end Component

end Unhook
