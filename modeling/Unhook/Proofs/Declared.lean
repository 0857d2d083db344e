import Mathlib.Data.List.Flatten
import Mathlib.Data.List.Nodup
import Unhook.Proofs.Correspondence
import Unhook.Proofs.Exported
import Unhook.Proofs.Unhooked

/-!
# Names that the script declares

The script has in one scope what the source has in several: the module, the props, the
body of the component, and the lifecycle functions that are imported. No step makes a
scope declare a name twice that did not before, whatever becomes of its statements, so
an item of the script can only declare a name again that belongs to another scope. That
is not looked for: a name that two of these have in common is declared twice.

* `Node.Keeps`: a node that can take the place of another one without introducing other
  names;
* `Node.keeps_unmemo`: taking memoizing hooks apart introduces no names;
* `Document.Origin.names`: the names that an item declares;
* `Component.redeclared_iff`: when the script declares a name twice.
-/

namespace Unhook

namespace Node

/-- The names that a statement declares for the scope that it stands in. -/
def scopeNames (n : Node) : List Text := n.declaredNames ++ n.hoistedNames

/-- A node `m` that can take the place of `n`: wherever it stands, it introduces the names
    that `n` introduces there. -/
structure Keeps (n m : Node) : Prop where
  names : m.names = n.names
  declarator : m.declaratorNames = n.declaratorNames
  qualified : m.namespaceNames = n.namespaceNames
  declared : m.declaredNames = n.declaredNames
  hoisted : m.hoistedNames = n.hoistedNames

/-- Whether a node introduces no names, wherever it stands. -/
def isSilent (n : Node) : Bool :=
  n.names.isEmpty && n.declaratorNames.isEmpty && n.namespaceNames.isEmpty &&
    n.declaredNames.isEmpty && n.hoistedNames.isEmpty

theorem isSilent_iff {n : Node} : n.isSilent = true ↔ n.names = [] ∧ n.declaratorNames = [] ∧
    n.namespaceNames = [] ∧ n.declaredNames = [] ∧ n.hoistedNames = [] := by
  simp only [isSilent, Bool.and_eq_true, List.isEmpty_iff, and_assoc]

theorem isSilent_of_kind {n : Node} (h : n.kind.introduces = false) : n.isSilent = true := by
  obtain ⟨k, s, ps⟩ := n
  cases k
  all_goals first | rfl | cases h

namespace Keeps

variable {n m : Node} {k : Kind} {s : Span} {ps qs : List Node}

theorem trans {a b c : Node} (h : Keeps a b) (h' : Keeps b c) : Keeps a c :=
  ⟨h'.names.trans h.names, h'.declarator.trans h.declarator, h'.qualified.trans h.qualified,
    h'.declared.trans h.declared, h'.hoisted.trans h.hoisted⟩

theorem scope (h : Keeps n m) : m.scopeNames = n.scopeNames := by
  rw [scopeNames, scopeNames, h.declared, h.hoisted]

theorem of_silent (hn : n.isSilent = true) (hm : m.isSilent = true) : Keeps n m := by
  obtain ⟨hn₁, hn₂, hn₃, hn₄, hn₅⟩ := isSilent_iff.1 hn
  obtain ⟨hm₁, hm₂, hm₃, hm₄, hm₅⟩ := isSilent_iff.1 hm
  exact ⟨hm₁.trans hn₁.symm, hm₂.trans hn₂.symm, hm₃.trans hn₃.symm, hm₄.trans hn₄.symm,
    hm₅.trans hn₅.symm⟩

theorem silent (h : Keeps n m) (hn : n.isSilent = true) : m.isSilent = true := by
  rw [isSilent_iff, h.names, h.declarator, h.qualified, h.declared, h.hoisted]
  exact isSilent_iff.1 hn

theorem of_keepsScopes {f : Node → Node} (hf : KeepsScopes f) (n : Node) : Keeps n (f n) :=
  ⟨names_kept hf n, declaratorNames_kept hf n, namespaceNames_kept hf n, declaredNames_kept hf n,
    hoistedNames_kept hf n⟩

theorem flatMap_eq {g : Node → List Text} (hg : ∀ {n m}, Keeps n m → g m = g n)
    (h : List.Forall₂ Keeps ps qs) : qs.flatMap g = ps.flatMap g := by
  induction h with
  | nil => rfl
  | cons hpq _ ih => rw [List.flatMap_cons, List.flatMap_cons, hg hpq, ih]

/-- Parts can be replaced. -/
theorem parts (h : List.Forall₂ Keeps ps qs) : Keeps (.mk k s ps) (.mk k s qs) where
  names := by
    cases k
    case patternProperty | defaultPattern =>
      rcases h with _ | ⟨ha, _ | ⟨hb, _ | ⟨hc, h⟩⟩⟩
      case cons.cons.nil =>
        first | exact ha.names | exact hb.names
      all_goals rfl
    case objectPattern | arrayPattern | rest =>
      show namesList qs = namesList ps
      rw [namesList_eq, namesList_eq, flatMap_eq Keeps.names h]
    all_goals rfl
  declarator := by
    cases k
    case declarator =>
      rcases h with _ | ⟨ha, h⟩
      · rfl
      · exact ha.names
    all_goals rfl
  qualified := by
    cases k
    case qualified =>
      rcases h with _ | ⟨ha, _ | ⟨hb, h⟩⟩
      case cons.nil => exact ha.qualified
      all_goals rfl
    all_goals rfl
  declared := by
    cases k
    case declaration v _ =>
      have hds := flatMap_eq Keeps.declarator h
      cases v
      case var => rfl
      all_goals exact hds
    case exportDeclaration | exportDefault | labeled =>
      rcases h with _ | ⟨ha, _ | ⟨hb, h⟩⟩
      case cons.nil => exact ha.declared
      all_goals rfl
    case function form =>
      rcases h with _ | ⟨ha, h⟩
      · rfl
      · simp only [declaredNames, ha.names]
    case «class» form =>
      rcases h with _ | ⟨ha, _ | ⟨hb, h⟩⟩
      case cons.cons => simp only [declaredNames, hb.names]
      all_goals rfl
    case namespace_ =>
      rcases h with _ | ⟨ha, h⟩
      · rfl
      · exact ha.qualified
    all_goals rfl
  hoisted := by
    simp only [hoistedNames, hoistedList_eq, flatMap_eq Keeps.declarator h,
      flatMap_eq Keeps.hoisted h]

end Keeps

/-! ### Steps -/

theorem keepsScopes_rename (old new : Text) : KeepsScopes (rename old new) where
  step n := by
    obtain ⟨k, s, ps⟩ := n
    rw [rename, renameList_eq]
    cases k
    case identifier | target | tagRef | typeName => exact .inr ⟨rfl, rfl⟩
    all_goals exact .inl rfl

theorem keepsScopes_renameAttributes : KeepsScopes renameAttributes where
  step n := by
    obtain ⟨k, s, ps⟩ := n
    cases k
    case «attribute» space name =>
      cases space
      all_goals exact .inr ⟨rfl, rfl⟩
    all_goals exact .inl (congrArg (mk _ s) (renameAttributesList_eq ps))

section Blocks

variable {names : List Text}

theorem keeps_lowerLists (n : Node) (bs : List Block) : Keeps n (n.lowerLists names bs).1 := by
  refine lowerLists_induction .parts (fun {k s ps} i hk => ?_) n bs
  refine .of_silent (isSilent_of_kind ?_) (isSilent_of_kind rfl)
  cases k
  case call => rfl
  all_goals cases hk

theorem keeps_lowerChoices (n : Node) (a : Bool) (bs : List Block) :
    Keeps n (n.lowerChoices names a bs).1 :=
  lowerChoices_induction .parts
    (fun _ => .of_silent (isSilent_of_kind rfl) (isSilent_of_kind rfl)) n a bs

end Blocks

/-- What a call may be replaced by if it is one of a memoizing hook: its argument, or what
    its argument gives back as a function. -/
def memoized : Node → List Node
  | mk (.call _ _) _ (_ :: _ :: a :: _) =>
    a :: a.parts.getLast?.toList.filter (·.kind ≠ .functionBody) ++ a.parts.flatMap fun b =>
      if b.kind = .functionBody then (b.parts.filter (·.kind = .returnStatement)).flatMap parts
      else []
  | _ => []

/-- Whether what is memoized within a tree introduces no names there, as is so for
    expressions. -/
def memoizesValues (n : Node) : Bool := !n.any fun m => m.isMemo && m.memoized.any (!·.isSilent)

theorem Memoizes.mem_memoized {n e : Node} (h : Memoizes n e) : e ∈ n.memoized := by
  cases h with
  | argument => exact List.mem_cons_self
  | concise hb => simp [memoized, hb]
  | returned hk hbody he =>
    refine List.mem_append_right _ (List.mem_flatMap.2 ⟨_, hbody, ?_⟩)
    rw [kind_mk, if_pos rfl]
    exact List.mem_flatMap.2 ⟨_, List.mem_filter.2 ⟨he, rfl⟩, List.mem_cons_self⟩

/-- When memoizing hooks are taken apart, the same names are introduced. -/
theorem keeps_unmemo {n m : Node} (h : n.unmemo = .ok m) (hn : n.memoizesValues = true) :
    Keeps n m := by
  have hcall {n : Node} (hn : n.isMemo = true) : n.isSilent = true := by
    obtain ⟨k, s, ps⟩ := n
    cases k
    case call => rfl
    all_goals cases hn
  have hwithin {n e : Node} {path : List Nat} (he : n.at? path = some e)
      (hn : n.memoizesValues = true) : e.memoizesValues = true := by
    rw [memoizesValues, Bool.not_eq_true', Bool.eq_false_iff] at hn ⊢
    exact fun h => hn (any_of_at? he h)
  refine unmemo_induction (motive := fun n m => n.memoizesValues = true → Keeps n m)
    ?_ ?_ ?_ h hn
  · intro k s ps ms _ _ hparts hn
    have hvalues : ∀ p ∈ ps, p.memoizesValues = true := fun p hp => by
      obtain ⟨i, hi⟩ := List.getElem?_of_mem hp
      exact @hwithin _ _ [i] (by simp [hi]) hn
    exact .parts (((List.forall₂_and_left ps ms).2 ⟨hvalues, hparts⟩).imp fun n m h => h.2.2 h.1)
  · intro n hmemo _
    exact .of_silent (hcall hmemo) rfl
  · intro n e m hmemo he ih hn
    obtain ⟨i, path, hat⟩ := he.at?
    have hsilent : e.isSilent = true := by
      obtain ⟨k, s, ps⟩ := n
      rw [memoizesValues, any_mk, hmemo, Bool.true_and, Bool.not_eq_true', Bool.or_eq_false_iff] at hn
      simpa using List.any_eq_false.1 hn.1 e he.mem_memoized
    exact .of_silent (hcall hmemo) ((ih (hwithin hat hn)).silent hsilent)

/-! ### Statements -/

theorem scopeNames_declaration (k : VarKind) (d : Bool) (s : Span) (ds : List Node) :
    (mk (.declaration k d) s ds).scopeNames = ds.flatMap declaratorNames := by
  cases k
  case var => rfl
  all_goals exact List.append_nil _

theorem scopeNames_labeled (l : Text) (s : Span) (n : Node) :
    (mk (.labeled l) s [n]).scopeNames = n.scopeNames := by
  rw [scopeNames, scopeNames]
  exact congrArg (n.declaredNames ++ ·) (List.append_nil _)

theorem sublist_filterMap {f : Node → Option Node}
    (hf : ∀ s t, f s = some t → t.scopeNames.Sublist s.scopeNames) (ss : List Node) :
    ((ss.filterMap f).flatMap scopeNames).Sublist (ss.flatMap scopeNames) := by
  induction ss with
  | nil => exact .slnil
  | cons s ss ih =>
    rw [List.filterMap_cons, List.flatMap_cons]
    split
    · exact ih.trans (List.sublist_append_right _ _)
    · next t ht => exact (hf s t ht).append ih

theorem scopeNames_withoutMarkup {s s' : Node} (h : MarkupTable.withoutMarkup s = some s') :
    s'.scopeNames.Sublist s.scopeNames := by
  have hkept (k : VarKind) (d : Bool) (sp : Span) (ds : List Node) (f : Node → Bool) :
      (mk (.declaration k d) sp (ds.filter f)).scopeNames.Sublist
        (mk (.declaration k d) sp ds).scopeNames := by
    rw [scopeNames_declaration, scopeNames_declaration]
    exact (List.filter_sublist (p := f)).flatMap _
  unfold MarkupTable.withoutMarkup at h
  dsimp only at h
  split at h
  · cases h
    exact .refl _
  · split at h
    · split at h
      · cases h
      · cases h
        exact hkept _ _ _ _ _
    · split at h
      · cases h
      · cases h
        rw [scopeNames_labeled, scopeNames_labeled]
        exact hkept _ _ _ _ _
    · cases h

end Node

open Node

theorem Effect.callTest_memoizesValues :
    CallTest fun m => m.isMemo && m.memoized.any (!·.isSilent) where
  call k s ps h := by
    have hmemo := (Bool.and_eq_true_iff.1 h).1
    rw [isMemo, expressionHook?_mk] at hmemo
    split at hmemo
    · assumption
    · cases hmemo
  register m f := by cases m <;> rfl

/-- Effects declare nothing, and neither does what they become. -/
theorem Effect.scopeNames_lower {ss ss' : List Node} {ms : List Lifecycle}
    (h : lower ss = .ok (ss', ms)) : ss'.flatMap scopeNames = ss.flatMap scopeNames := by
  induction ss generalizing ss' ms with
  | nil =>
    cases h
    rfl
  | cons s ss ih =>
    unfold lower at h
    split at h
    · obtain ⟨⟨rest, ms'⟩, hlower, h⟩ := of_bind_eq_ok h
      cases h
      rw [List.flatMap_cons, List.flatMap_cons, ih hlower]
    · next hook call hcall =>
      obtain ⟨e, -, h⟩ := of_bind_eq_ok h
      obtain ⟨⟨rest, ms'⟩, hlower, h⟩ := of_bind_eq_ok h
      cases h
      obtain ⟨sp, rfl, -, -⟩ := ofStatement?_eq_some hcall
      have hnone : (e.registrations.map fun r => register r.1 r.2).flatMap scopeNames = [] := by
        refine List.flatMap_eq_nil_iff.2 fun t ht => ?_
        obtain ⟨r, -, rfl⟩ := List.mem_map.1 ht
        rfl
      show ((e.registrations.map fun r => register r.1 r.2) ++ rest).flatMap scopeNames = _
      rw [List.flatMap_append, hnone, List.flatMap_cons, ih hlower]
      rfl

namespace Component

theorem scopeNames_lowerMarkup (c : Component) :
    c.lowerMarkup.module.flatMap scopeNames = c.module.flatMap scopeNames ∧
      c.lowerMarkup.body.flatMap scopeNames = c.body.flatMap scopeNames := by
  obtain ⟨hmodule, hbody⟩ := forall₂_lowerMarkup (R := Keeps) Keeps.trans
    (Keeps.of_keepsScopes keepsScopes_renameAttributes) (fun _ => keeps_lowerLists)
    (fun _ n => keeps_lowerChoices n false) c
  exact ⟨Keeps.flatMap_eq Keeps.scope hmodule, Keeps.flatMap_eq Keeps.scope hbody⟩

theorem scopeNames_hooks {d e f : Component} (he : d.lowerEffects = .ok e) (hf : e.unmemo = .ok f)
    (hvalues : ∀ s ∈ d.module ++ d.body, s.memoizesValues = true) :
    f.module.flatMap scopeNames = d.module.flatMap scopeNames ∧
      f.body.flatMap scopeNames = d.body.flatMap scopeNames := by
  obtain ⟨hmodule, hbody⟩ := List.forall_mem_append.1 hvalues
  obtain ⟨body, ms, lifecycle, hlower, -, rfl⟩ := lowerEffects_eq_ok he
  obtain ⟨module', body', hmodule', hbody', rfl⟩ := unmemo_eq_ok hf
  have hunmemo {ss ts : List Node} (h : unmemoList ss = .ok ts)
      (hss : ∀ s ∈ ss, s.memoizesValues = true) :
      ts.flatMap scopeNames = ss.flatMap scopeNames := by
    refine Keeps.flatMap_eq Keeps.scope ?_
    exact ((List.forall₂_and_left ss ts).2 ⟨hss, forall₂_of_unmemoList h⟩).imp
      fun s t h => keeps_unmemo h.2 h.1
  have hbody' (s : Node) (hs : s ∈ body) : s.memoizesValues = true := by
    rw [memoizesValues, Bool.not_eq_true', Bool.eq_false_iff]
    intro hany
    obtain ⟨t, ht, hany⟩ := List.any_eq_true.1 (Effect.any_lower Effect.callTest_memoizesValues
      hlower (List.any_eq_true.2 ⟨s, hs, hany⟩))
    have hquiet := hbody t ht
    rw [memoizesValues, hany] at hquiet
    cases hquiet
  exact ⟨hunmemo hmodule' hmodule, (hunmemo ‹_› hbody').trans (Effect.scopeNames_lower hlower)⟩

theorem scopeNames_inlineMarkup (c : Component) :
    (c.inlineMarkup.module.flatMap scopeNames).Sublist (c.module.flatMap scopeNames) ∧
      (c.inlineMarkup.body.flatMap scopeNames).Sublist (c.body.flatMap scopeNames) := by
  have hfilled (ss : List Node) :
      (((substituteList c.markupTable.resolve ss).filterMap MarkupTable.withoutMarkup).flatMap
        scopeNames).Sublist (ss.flatMap scopeNames) := by
    have hsame : (substituteList c.markupTable.resolve ss).flatMap scopeNames =
        ss.flatMap scopeNames := by
      rw [substituteList_eq, List.flatMap_map]
      exact List.flatMap_congr fun s _ =>
        (Keeps.of_keepsScopes (keepsScopes_substitute _) s).scope
    rw [← hsame]
    exact sublist_filterMap (fun s t => scopeNames_withoutMarkup) _
  have hlast (t : MarkupTable) (ss : List Node) :
      (fillLast t ss).flatMap scopeNames = ss.flatMap scopeNames := by
    rcases List.eq_nil_or_concat ss with rfl | ⟨init, r, rfl⟩
    · rfl
    · have hreturn : (fillReturn t r).scopeNames = r.scopeNames := by
        unfold fillReturn
        split
        · rfl
        · rfl
      rw [List.concat_eq_append, fillLast_concat, List.flatMap_append, List.flatMap_append,
        List.flatMap_singleton, List.flatMap_singleton, hreturn]
  refine ⟨hfilled c.module, ?_⟩
  rw [← hlast c.markupTable c.body]
  exact hfilled _

end Component

/-! ### State -/

/-- A declaration of state declares its value and its setter. -/
theorem StateDeclaration.scopeNames_of_ofStatement? {s : Node} {sd : StateDeclaration}
    (h : ofStatement? s = .ok (some sd)) : s.scopeNames = [sd.value, sd.setter] := by
  unfold ofStatement? at h
  split at h
  · next k declare sp ds =>
    split at h
    · cases h
    · next e he =>
      split at h
      · cases h
      · next hlength =>
        obtain ⟨d, rfl⟩ := List.length_eq_one_iff.1 (Decidable.not_not.1 hlength)
        obtain rfl := List.mem_singleton.1 (List.mem_of_find?_eq_some he)
        have hstate := List.find?_some he
        rw [scopeNames_declaration, List.flatMap_singleton]
        split at h
        · next kd _ _ _ _ _ _ _ _ _ _ =>
          cases h
          cases kd
          case declarator => rfl
          all_goals cases hstate
        · cases h
  · cases h

theorem IsVariable.scopeNames {name : Text} {value : Option Node} {s : Node}
    (h : IsVariable name value s) : s.scopeNames = [name] := by
  obtain ⟨sp, sp', sp'', sp₃, v, rfl, -⟩ := h
  rfl

/-- Whatever becomes of a statement, it declares nothing more. -/
theorem Fate.scopeNames {setters : List (Text × Text)} {f : Fate} {s t : Node}
    (h : f.Relates setters s t) : t.scopeNames.Sublist s.scopeNames := by
  have hassigned (n : Node) : (n.assigned setters).scopeNames = n.scopeNames :=
    (Keeps.of_keepsScopes keepsScopes_assigned n).scope
  cases f with
  | kept =>
    obtain rfl : t = s.assigned setters := h
    rw [hassigned]
  | labelled =>
    rcases h with ⟨-, rfl⟩ | ⟨p, init, x, target, -, rfl, ⟨sp, sp', rfl⟩, -⟩
    · rw [reactive, scopeNames_labeled, hassigned]
    · exact List.nil_sublist _
  | declared =>
    obtain ⟨sd, hsd, ht⟩ := h
    rw [StateDeclaration.scopeNames_of_ofStatement? hsd, ht.scopeNames]
    exact (List.nil_sublist _).cons_cons _

namespace Component

variable {typescript : Bool} {b c d : Component}

theorem scopeNames_renamed (c : Component) (s : Node) :
    (c.renamed s).scopeNames = s.scopeNames := by
  unfold renamed
  split
  · exact (Keeps.of_keepsScopes (keepsScopes_rename _ _) s).scope
  · rfl

/-- Whether a text is read as a statement that declares nothing. -/
def declaresNothing (typescript : Bool) (t : Text) : Bool :=
  Template.passes (·.scopeNames.isEmpty) (Template.read typescript t)

theorem sublist_of_forall₂ {ss ts : List Node}
    (h : List.Forall₂ (fun s t => t.scopeNames.Sublist s.scopeNames) ss ts) :
    (ts.flatMap scopeNames).Sublist (ss.flatMap scopeNames) := by
  induction h with
  | nil => exact .slnil
  | cons hst _ ih => exact hst.append ih

/-- A name that is declared by one of some statements only, and not by what becomes of that
    statement, is not declared by what becomes of them. -/
theorem not_mem_of_forall₂ {P : Node → Text → Prop} {ss ts : List Node}
    (h : List.Forall₂ (fun s t => t.scopeNames.Sublist s.scopeNames ∧
      ∀ x, P s x → x ∈ s.scopeNames ∧ x ∉ t.scopeNames) ss ts)
    (hnodup : (ss.flatMap scopeNames).Nodup) {s : Node} (hs : s ∈ ss) {x : Text} (hx : P s x) :
    x ∈ ss.flatMap scopeNames ∧ x ∉ ts.flatMap scopeNames := by
  induction h with
  | nil => cases hs
  | cons hst hrest ih =>
    rw [List.flatMap_cons] at hnodup
    obtain ⟨-, hnodup, hdisjoint⟩ := List.nodup_append'.1 hnodup
    have hsub := (sublist_of_forall₂ (hrest.imp fun _ _ h => h.1)).subset
    rw [List.flatMap_cons, List.flatMap_cons, List.mem_append, List.mem_append, not_or]
    rcases List.mem_cons.1 hs with rfl | hs
    · obtain ⟨hmem, hnot⟩ := hst.2 x hx
      exact ⟨.inl hmem, hnot, fun h => hdisjoint hmem (hsub h)⟩
    · obtain ⟨hmem, hnot⟩ := ih hnodup hs
      exact ⟨.inr hmem, fun h => hdisjoint (hst.1.subset h) hmem, hnot⟩

/-- An alias stays at the head of the body. -/
theorem Bound.alias_stays {aliases : List Node} (h : Bound typescript aliases c b)
    (hlabels : c.aliasTexts.all (readsLabel typescript) = true)
    (hd : b.extractState typescript = .ok d) {i : Nat} {a : Node} (ha : aliases[i]? = some a) :
    d.body[i]? = some (a.assigned d.setters) := by
  obtain ⟨hbody, hclosed⟩ := h.head i a ha
  have hkind := h.kind_alias hlabels (List.mem_of_getElem? ha)
  rcases extractState_body hd hbody with ⟨sd, t, hsd, -⟩ | ⟨-, hbody | ⟨hopen, -⟩⟩
  · obtain ⟨k, declare, hk⟩ := StateDeclaration.ofStatement?_kind hsd
    rw [hk] at hkind
    cases hkind
  · exact hbody
  · rw [hclosed] at hopen
    cases hopen

theorem Bound.scopeNames_alias {aliases : List Node} (h : Bound typescript aliases c b)
    (haliases : c.aliasTexts.all (declaresNothing typescript) = true) {a : Node}
    (ha : a ∈ aliases) : a.scopeNames = [] := by
  have hmem : Except.ok a ∈ c.aliasTexts.map (Template.read typescript) := by
    rw [h.texts]
    exact List.mem_map_of_mem ha
  obtain ⟨t, ht, hread⟩ := List.mem_map.1 hmem
  have hnothing := List.all_eq_true.1 haliases t ht
  rw [declaresNothing, hread, Template.passes] at hnothing
  exact List.isEmpty_iff.1 hnothing

/-- When props are bound and state is extracted, the body declares nothing more, and no
    longer the setters. -/
theorem scopeNames_state {length : Nat} {module : List Node} (hc : ofModule length module = .ok c)
    (hb : c.bindProps typescript = .ok b) (hd : b.extractState typescript = .ok d)
    (hholes : ∀ s ∈ c.body, s.hasHole = false) (hread : c.isLegible typescript d.setters = true)
    (haliases : c.aliasTexts.all (declaresNothing typescript) = true)
    (hnodup : (c.body.flatMap scopeNames).Nodup) :
    (d.body.flatMap scopeNames).Sublist (c.body.flatMap scopeNames) ∧ ∀ q ∈ d.setters,
      q.1 ∈ c.body.flatMap scopeNames ∧ q.1 ∉ d.body.flatMap scopeNames := by
  obtain ⟨aliases, hbound⟩ := bindProps_bound hb
  have hlabels : c.aliasTexts.all (readsLabel typescript) = true := by
    simp only [isLegible, Bool.and_eq_true] at hread
    exact hread.1.1
  have hlength : d.body.length = aliases.length + c.body.length :=
    (extractState_length hd).trans hbound.length
  have hhead : (d.body.take aliases.length).flatMap scopeNames = [] := by
    refine List.flatMap_eq_nil_iff.2 fun t ht => ?_
    obtain ⟨i, hi⟩ := List.getElem?_of_mem ht
    rw [List.getElem?_take] at hi
    split at hi
    · next hlt =>
      have ha := List.getElem?_eq_getElem hlt
      rw [hbound.alias_stays hlabels hd ha] at hi
      cases hi
      rw [(Keeps.of_keepsScopes keepsScopes_assigned _).scope]
      exact hbound.scopeNames_alias haliases (List.mem_of_getElem? ha)
    · cases hi
  have hrest : List.Forall₂ (fun s t => t.scopeNames.Sublist s.scopeNames ∧
      ∀ x, (∃ sd, StateDeclaration.ofStatement? (c.renamed s) = .ok (some sd) ∧ x = sd.setter) →
        x ∈ s.scopeNames ∧ x ∉ t.scopeNames) c.body (d.body.drop aliases.length) := by
    refine List.forall₂_iff_get.2 ⟨by rw [List.length_drop, hlength]; omega, fun i hi hi' => ?_⟩
    have hs := List.getElem?_eq_getElem hi
    obtain ⟨t, f, ht, hf, hstate⟩ := exists_fate hc hb hd hholes hread hbound hs
    have hget : (d.body.drop aliases.length).get ⟨i, hi'⟩ = t := by
      rw [← List.getElem?_drop] at ht
      exact (List.getElem?_eq_some_iff.1 ht).2
    rw [hget, List.get_eq_getElem]
    have hsub := Fate.scopeNames hf
    rw [scopeNames_renamed] at hsub
    refine ⟨hsub, ?_⟩
    rintro x ⟨sd, hsd, rfl⟩
    obtain rfl := hstate.2 ⟨sd, hsd⟩
    obtain ⟨sd', hsd', hvariable⟩ := hf
    cases hsd.symm.trans hsd'
    have hnames := StateDeclaration.scopeNames_of_ofStatement? hsd
    rw [scopeNames_renamed] at hnames
    have hpair := (List.nodup_flatMap.1 hnodup).1 _ (List.mem_of_getElem? hs)
    rw [hnames] at hpair ⊢
    have hne : sd.value ≠ sd.setter := by simpa using hpair
    rw [hvariable.scopeNames]
    exact ⟨by simp, by simpa using hne.symm⟩
  have hbody : d.body.flatMap scopeNames = (d.body.drop aliases.length).flatMap scopeNames := by
    conv_lhs => rw [← List.take_append_drop aliases.length d.body, List.flatMap_append, hhead]
    rfl
  rw [hbody]
  refine ⟨sublist_of_forall₂ (hrest.imp fun _ _ h => h.1), fun q hq => ?_⟩
  obtain ⟨e, -, -, he, -, -, -⟩ := extractState_eq_ok hd
  rw [(extractState_setters hd he).1] at hq
  rcases extractCells_setters List.nodup_range he hq with hq | ⟨i, -, s, hi, sd, hsd, rfl⟩
  · rw [hbound.setters, (ofModule_fresh hc).2.1] at hq
    cases hq
  · -- A declaration of state has no label, so it is one of the source.
    obtain ⟨k, declare, hk⟩ := StateDeclaration.ofStatement?_kind hsd
    obtain ⟨s₀, hs₀, rfl⟩ := hbound.source_of_not_labelled hlabels hi (by simp [hk])
    exact not_mem_of_forall₂ hrest hnodup hs₀ ⟨sd, hsd, rfl⟩

end Component

/-! ### The script -/

/-- The names that the item of an origin declares. -/
def Document.Origin.names : Origin → List Text
  | lifecycle names => names
  | ofModule s | ofBody s => s.scopeNames
  | prop f => [f.name]
  | setter x _ => [x]

namespace Component

/-- Lists of names, of which those of one group have nothing in common, have something in
    common exactly if two groups have. -/
theorem pairwise_disjoint_flatten {gs : List (List (List Text))}
    (h : ∀ g ∈ gs, g.Pairwise List.Disjoint) :
    gs.flatten.Pairwise List.Disjoint ↔ (gs.map List.flatten).Pairwise List.Disjoint := by
  have hflatten (g g' : List (List Text)) :
      (∀ x ∈ g, ∀ y ∈ g', x.Disjoint y) ↔ g.flatten.Disjoint g'.flatten := by
    simp only [List.Disjoint, List.mem_flatten]
    grind
  rw [List.pairwise_flatten, List.pairwise_map, and_iff_right h]
  simp only [hflatten]

theorem flatten_singletons {α : Type} (f : α → Text) (xs : List α) :
    (xs.map fun x => [f x]).flatten = xs.map f := by
  rw [← List.flatMap_def]
  exact List.flatMap_pure_eq_map f xs

/-- The names that the items of a script declare, item by item, in the groups of what they are
    written from. -/
def declaredGroups (c : Component) : List (List (List Text)) :=
  c.origins.map (List.map Document.Origin.names)

/-- What the items of each group declare, if all setters set something. -/
theorem flatten_declaredGroups {c : Component}
    (hsetters : ∀ x ∈ c.synthesized, (c.setterValue? x).isSome = true) :
    c.declaredGroups.map List.flatten =
    [c.lifecycle, (c.module.filter fun s => !s.isLeftOut).flatMap scopeNames,
      (c.fields.map Field.name).filter (!Document.isInternal ·),
      c.body.dropLast.flatMap scopeNames ++ c.synthesized] := by
  have hlifecycle : ((if c.lifecycle.isEmpty then []
      else [Document.Origin.lifecycle c.lifecycle]).map Document.Origin.names).flatten =
      c.lifecycle := by
    split
    · next h => exact (List.isEmpty_iff.1 h).symm
    · exact List.append_nil _
  simp only [declaredGroups, origins, settersOf_eq_map hsetters, List.map_cons, List.map_nil,
    List.map_append, List.map_map, List.flatten_append, List.filter_map, List.flatMap_def, hlifecycle]
  exact congrArg₂ (fun props setters => [c.lifecycle, _, props, _ ++ setters])
    (flatten_singletons Field.name _) ((flatten_singletons id _).trans (List.map_id _))

/-- Within a group nothing is declared twice if that is so in each scope. -/
theorem pairwise_declaredGroups {c : Component}
    (h : ∀ l ∈ (c.declaredGroups.map List.flatten).tail, l.Nodup) :
    ∀ g ∈ c.declaredGroups, g.Pairwise List.Disjoint := by
  intro g hg
  rcases List.mem_cons.1 hg with rfl | hg
  · split
    · exact .nil
    · exact List.pairwise_singleton _ _
  · exact (List.nodup_flatten.1 (h _ (List.mem_map_of_mem hg))).2

/-- When the script declares a name twice. Hypotheses: neither the module nor the body of
    the component declares one twice; the source does not use the names of holes, and what
    is written out as text is read as it is meant, where aliases declare nothing; and what
    memoizing hooks are given introduces no names. Then

    * the items are written from what stands in the compiled component (`origins`), which
      tells the names that each of them declares;
    * two items declare the same name exactly if it belongs to two of these: the lifecycle
      functions that are imported, the module, the props, and the component with its
      setters;
    * what the items of the module declare, the module of the source declares, in the same
      order, and what those of the component and its setters declare, its body does. -/
theorem redeclared_iff {options : Options} {source : Text} {module : List Node}
    {c₀ b d c : Component} {doc : Document} (hmodule : parse options source = .ok module)
    (hc₀ : ofModule source.byteLength module = .ok c₀)
    (hb : c₀.bindProps options.typescript = .ok b)
    (hd : b.extractState options.typescript = .ok d)
    (hc : compileThrough options Pass.all source = .ok c) (hdoc : c.document options = .ok doc)
    (hmoduleNames : (module.flatMap scopeNames).Nodup)
    (hbodyNames : (c₀.body.flatMap scopeNames).Nodup)
    (hholes : ∀ s ∈ c₀.body, s.hasHole = false)
    (hread : c₀.isLegible options.typescript d.setters = true)
    (haliases : c₀.aliasTexts.all (declaresNothing options.typescript) = true)
    (hvalues : ∀ s ∈ d.lowerMarkup.module ++ d.lowerMarkup.body, s.memoizesValues = true) :
    List.Forall₂ (Document.Origin.Writes options) c.origins.flatten doc.script ∧
      ((c.origins.flatten.map Document.Origin.names).Pairwise List.Disjoint ↔
        [doc.lifecycleImports, (c.module.filter fun s => !s.isLeftOut).flatMap scopeNames,
          doc.props, c.body.dropLast.flatMap scopeNames ++ doc.synthesizedSetters].Pairwise
            List.Disjoint) ∧
      ((c.module.filter fun s => !s.isLeftOut).flatMap scopeNames).Sublist
        (module.flatMap scopeNames) ∧
      c.body.dropLast.flatMap scopeNames ++ doc.synthesizedSetters ⊆
        c₀.body.flatMap scopeNames := by
  have hb' : compileThrough options [.props] source = .ok b := by
    simp [compileThrough, hmodule, hc₀, Pass.run, hb, bind, Except.bind, pure, Except.pure]
  obtain ⟨f, hplaced, hhooked, e, he, hf, rfl⟩ := compileThrough_of_state hb' hd hc
  obtain ⟨hsetters, hsynthesized⟩ := compiled_setters hb' hd hc
  obtain ⟨hmoduleKept, hbodyKept⟩ := scopeNames_hooks he hf hvalues
  obtain ⟨hmoduleLeft, hbodyLeft⟩ := scopeNames_inlineMarkup f
  obtain ⟨hbodyState, hsettersState⟩ := scopeNames_state hc₀ hb hd hholes hread haliases hbodyNames
  have hmoduleSub : ((f.inlineMarkup.module.filter fun s => !s.isLeftOut).flatMap
      scopeNames).Sublist (module.flatMap scopeNames) := by
    rw [hmoduleKept, (scopeNames_lowerMarkup d).1, (extractState_sameFrame hd).module,
      (bindProps_bindsFields hb).module, ofModule_module hc₀] at hmoduleLeft
    exact (List.filter_sublist.flatMap _).trans
      (hmoduleLeft.trans (List.filter_sublist.flatMap _))
  have hbodySub : (f.inlineMarkup.body.dropLast.flatMap scopeNames).Sublist
      (d.body.flatMap scopeNames) := by
    rw [hbodyKept, (scopeNames_lowerMarkup d).2] at hbodyLeft
    exact ((List.dropLast_sublist _).flatMap _).trans hbodyLeft
  obtain ⟨hnodup, hvalue⟩ : f.inlineMarkup.synthesized.Nodup ∧
      ∀ x ∈ f.inlineMarkup.synthesized, (d.setters.lookup x).isSome = true := by
    obtain ⟨g, -, -, hg, -⟩ := extractState_eq_ok hd
    obtain ⟨hsame, hnodup, hmem⟩ := extractState_setters hd hg
    rw [hsynthesized]
    refine ⟨hnodup (by simp [(props_fresh hb').2]), fun x hx => ?_⟩
    rcases (hmem x).1 hx with hx | hx
    · rw [(props_fresh hb').2] at hx
      cases hx
    · rw [hsame]
      exact hx.1
  have hsetterNames (x : Text) (hx : x ∈ f.inlineMarkup.synthesized) :
      x ∈ c₀.body.flatMap scopeNames ∧ x ∉ d.body.flatMap scopeNames := by
    obtain ⟨v, hv⟩ := Option.isSome_iff_exists.1 (hvalue x hx)
    obtain ⟨l, r, hl, -⟩ := List.lookup_eq_some_iff.1 hv
    exact hsettersState (x, v) (by simp [hl])
  obtain ⟨script, markup, hscript, -, rfl⟩ := document_eq_ok hdoc
  refine ⟨writes_script hscript, ?_, hmoduleSub, ?_⟩
  · have hgroups := flatten_declaredGroups (c := f.inlineMarkup) fun x hx => by
      rw [setterValue?, hsetters]
      exact hvalue x hx
    rw [List.map_flatten, ← hgroups]
    refine pairwise_disjoint_flatten (pairwise_declaredGroups ?_)
    simp only [hgroups, List.tail_cons, List.forall_mem_cons]
    refine ⟨hmoduleSub.nodup hmoduleNames, ?_, ?_, List.forall_mem_nil _⟩
    · refine .filter _ ?_
      show (f.fields.map Field.name).Nodup
      rw [(hooked_eq_ok hplaced hhooked).2.1, (extractState_sameFrame hd).fields,
        bindProps_fields hb (ofModule_eq_ok hc₀).1]
      exact Text.nodup_eraseDups _
    · refine List.nodup_append'.2 ⟨(hbodySub.trans hbodyState).nodup hbodyNames, hnodup, ?_⟩
      exact fun x hx hx' => (hsetterNames x hx').2 (hbodySub.subset hx)
  · refine List.append_subset.2 ⟨fun x hx => ?_, fun x hx => (hsetterNames x hx).1⟩
    exact hbodyState.subset (hbodySub.subset hx)

/-- A component with a name in its module, a prop under another name, a piece of state and a
    setter that is handed on. -/
def scopesSource : Text :=
  "const k = 1;
  export default (\x7b b: y \x7d) => \x7b
    const [n, setN] = useState(k);
    const m = n;
    return <p on=\x7bsetN\x7d>\x7by\x7d</p>;
  \x7d;"

theorem scopes_redeclared_iff : ∃ module c₀ b d c doc, parse {} scopesSource = .ok module ∧
    ofModule scopesSource.byteLength module = .ok c₀ ∧ c₀.bindProps false = .ok b ∧
    b.extractState false = .ok d ∧ compileThrough {} Pass.all scopesSource = .ok c ∧
    c.document {} = .ok doc ∧ (module.flatMap scopeNames).Nodup ∧
    (c₀.body.flatMap scopeNames).Nodup ∧ (∀ s ∈ c₀.body, s.hasHole = false) ∧
    c₀.isLegible false d.setters = true ∧ c₀.aliasTexts.all (declaresNothing false) = true ∧
    (∀ s ∈ d.lowerMarkup.module ++ d.lowerMarkup.body, s.memoizesValues = true) ∧
    List.Forall₂ (Document.Origin.Writes {}) c.origins.flatten doc.script ∧
    c.origins.flatten.map Document.Origin.names =
      [[("k" : Text)], [("b" : Text)], [], [("n" : Text)], [], [("setN" : Text)]] ∧
    (c.origins.flatten.map Document.Origin.names).Pairwise List.Disjoint := by
  have hsource : ((parse {} scopesSource).toOption.bind fun module =>
      (ofModule scopesSource.byteLength module).toOption.bind fun c₀ =>
      (c₀.bindProps false).toOption.bind fun b => (b.extractState false).toOption.bind fun d =>
      (compileThrough {} Pass.all scopesSource).toOption.bind fun c =>
      (c.document {}).toOption.map fun doc =>
        (c.origins.flatten.map Document.Origin.names, [doc.lifecycleImports,
            (c.module.filter fun s => !s.isLeftOut).flatMap scopeNames, doc.props,
            c.body.dropLast.flatMap scopeNames ++ doc.synthesizedSetters],
          decide (module.flatMap scopeNames).Nodup && decide (c₀.body.flatMap scopeNames).Nodup &&
          (c₀.body.all fun s => !s.hasHole) && c₀.isLegible false d.setters &&
          c₀.aliasTexts.all (declaresNothing false) &&
          (d.lowerMarkup.module ++ d.lowerMarkup.body).all memoizesValues)) =
      some ([[("k" : Text)], [("b" : Text)], [], [("n" : Text)], [], [("setN" : Text)]],
        [[], [("k" : Text)], [("b" : Text)], [("n" : Text), ("setN" : Text)]], true) := by
    rw [(by apply String.toList_ofList : scopesSource = _)]
    decide +kernel
  obtain ⟨module, hmodule, hsource⟩ := of_toOption_bind hsource
  obtain ⟨c₀, hc₀, hsource⟩ := of_toOption_bind hsource
  obtain ⟨b, hb, hsource⟩ := of_toOption_bind hsource
  obtain ⟨d, hd, hsource⟩ := of_toOption_bind hsource
  obtain ⟨c, hc, hsource⟩ := of_toOption_bind hsource
  obtain ⟨doc, hdoc, hsource⟩ := of_toOption_map hsource
  simp only [Prod.mk.injEq, Bool.and_eq_true, List.all_eq_true, Bool.not_eq_true',
    decide_eq_true_eq] at hsource
  obtain ⟨hnames, hlists, ⟨⟨⟨⟨hmoduleNames, hbodyNames⟩, hholes⟩, hread⟩, haliases⟩, hvalues⟩ :=
    hsource
  have haliases : c₀.aliasTexts.all (declaresNothing false) = true := List.all_eq_true.2 haliases
  obtain ⟨hwrites, hiff, -, -⟩ := redeclared_iff hmodule hc₀ hb hd hc hdoc hmoduleNames hbodyNames
    hholes hread haliases hvalues
  rw [hlists] at hiff
  exact ⟨module, c₀, b, d, c, doc, hmodule, hc₀, hb, hd, hc, hdoc, hmoduleNames, hbodyNames, hholes,
    hread, haliases, hvalues, hwrites, hnames, hiff.2 (by simp +decide [List.Disjoint])⟩

/-- Nothing keeps a lifecycle function from being imported that the module imports, or a
    piece of state from being declared by the name of a prop. -/
theorem names_redeclared :
    ((compile? {} "import \x7b onMount \x7d from 'svelte';
        export default () => \x7b useEffect(() => \x7b\x7d, []); return <p />; \x7d;"
        ).toOption.map Document.script =
      some [("import \x7b onMount \x7d from \"svelte\";" : Text),
        ("import \x7b onMount \x7d from 'svelte';" : Text),
        ("onMount(() => \x7b\x7d);" : Text)]) ∧
    (compile? {} "export default (props) => \x7b
        const [value, setValue] = useState(props.value); return <p />; \x7d;"
        ).toOption.map Document.script =
      some [("export let value;" : Text), ("let value = $$props.value;" : Text)] := by
  refine ⟨?_, ?_⟩
  all_goals
    conv in compile? _ _ =>
      arg 2
      apply String.toList_ofList
    decide +kernel

end Component

end Unhook
