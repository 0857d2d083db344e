import Unhook.Proofs.StatePair
import Unhook.Proofs.Unmemoized

/-!
# Where nodes come from

Compilation moves nodes of the source around, and it makes nodes of its own: it reads
texts that it has written, puts assignments in the place of calls of setters, and names
in the place of lists. The first two have stretches that are no stretches of the source.

* `Node.All`: all nodes of a tree have a property;
* `Node.Traced`: a node has the stretch, and the kind if problems are reported at such
  nodes, of one it comes from, or it is one that is put in the place of a call of a
  setter;
* `Node.Derives`: a tree in the place of another one, of which all nodes are traced if
  those of the other one are; every step of compilation gives such trees.
-/

namespace Unhook

/-- The kinds of nodes at which problems are reported because of what they are. -/
def Kind.isReported : Kind → Bool
  | .call _ _ | .element | .fragment | .declaration _ _ | .declarator _ => true
  | _ => false

/-- The stretches that the assignment in the place of a call of the setter of `value` can
    have. -/
def setterSpans (value : Text) : List Span :=
  let target : Text := value ++ " = "
  [.inParens (target ++ "undefined"), .inParens (target ++ Template.hole ++ "(" ++ value ++ ")"),
    .inParens (target ++ Template.hole)]

namespace Node

/-! ### All nodes of a tree -/

/-- All nodes of a tree have a property. -/
def All (P : Node → Prop) (n : Node) : Prop := ∀ path m, n.at? path = some m → P m

namespace All

variable {P Q : Node → Prop} {n m : Node} {k : Kind} {s : Span} {ps : List Node}

theorem self (h : n.All P) : P n := h [] n rfl

theorem of_mem (h : n.All P) (hm : m ∈ n.parts) : m.All P := by
  obtain ⟨i, hi⟩ := List.mem_iff_getElem?.1 hm
  intro path l hl
  exact h (i :: path) l (by rw [at?_cons, hi]; exact hl)

theorem at? (h : n.All P) {path : List Nat} (hm : n.at? path = some m) : m.All P := by
  induction path generalizing n with
  | nil =>
    cases hm
    exact h
  | cons i path ih =>
    obtain ⟨p, hp, hm⟩ := Option.bind_eq_some_iff.1 hm
    exact ih (h.of_mem (List.mem_of_getElem? hp)) hm

theorem of_parts (h : P (.mk k s ps)) (hps : ∀ p ∈ ps, p.All P) : (Node.mk k s ps).All P := by
  intro path m hm
  cases path with
  | nil =>
    cases hm
    exact h
  | cons i path =>
    obtain ⟨p, hp, hm⟩ := Option.bind_eq_some_iff.1 hm
    exact hps p (List.mem_of_getElem? hp) path m hm

theorem leaf (h : P (.mk k s [])) : (Node.mk k s []).All P :=
  of_parts h fun _ hp => absurd hp List.not_mem_nil

theorem mono (h : n.All P) (hPQ : ∀ m, P m → Q m) : n.All Q := fun path m hm => hPQ m (h path m hm)

end All

variable {n : Node}

theorem mem_of_findList? {q : Node → Bool} {ns : List Node} {m : Node}
    (h : findList? q ns = some m) : ∃ n ∈ ns, n.find? q = some m := by
  induction ns with
  | nil => cases h
  | cons n ns ih =>
    rw [findList?, Option.or_eq_some_iff] at h
    rcases h with h | ⟨-, h⟩
    · exact ⟨n, List.mem_cons_self, h⟩
    · obtain ⟨n', hn', h⟩ := ih h
      exact ⟨n', List.mem_cons_of_mem _ hn', h⟩

/-- What is found in a tree is one of its nodes. -/
theorem All.of_find? {P : Node → Prop} {q : Node → Bool} {n m : Node} (hn : n.All P)
    (h : n.find? q = some m) : P m ∧ q m = true := by
  induction n with
  | mk k s ps ih =>
    rw [find?] at h
    split at h
    · next hq =>
      cases h
      exact ⟨hn.self, hq⟩
    · obtain ⟨p, hp, h⟩ := mem_of_findList? h
      exact ih p hp (hn.of_mem hp) h

/-! ### Traced nodes -/

/-- A node `m` with the stretch of `n`, and with its kind if problems are reported at such
    nodes. -/
structure Resembles (n m : Node) : Prop where
  span : m.span = n.span
  kind : m.kind.isReported = true → m.kind = n.kind

/-- A node that comes from one of the nodes of origin, or that is put in the place of a call
    of the setter of a piece of state. Names may be put in the place of lists, if there are
    such `holes`. -/
inductive Traced (origin : Node → Prop) (state : Text → Prop) (holes : Bool) : Node → Prop
  | absent {s : Span} {ps : List Node} : Traced origin state holes (.mk .absent s ps)
  | origin {n m : Node} (hn : origin n) (h : Resembles n m) : Traced origin state holes m
  | setter {v : Text} {k : Kind} {s : Span} {ps : List Node} (hv : state v) (hs : s ∈ setterSpans v)
      (hk : k.isReported = false) : Traced origin state holes (.mk k s ps)
  /-- The call of the function that a setter is given. -/
  | update {v : Text} {s : Span} {f : Node} {ps : List Node} (hv : state v) (hs : s ∈ setterSpans v)
      (hf : f.isFunction = true) : Traced origin state holes (.mk (.call .plain false) s (f :: ps))
  | hole {x : Text} {s : Span} {ps : List Node} (h : holes = true) :
      Traced origin state holes (.mk (.identifier x) s ps)

variable {origin : Node → Prop} {state : Text → Prop} {holes : Bool}

/-- A tree of which all nodes are nodes of origin. -/
theorem All.traced (h : n.All origin) : n.All (Traced origin state holes) :=
  h.mono fun _ hm => .origin hm ⟨rfl, fun _ => rfl⟩

theorem Traced.withHoles (h : Traced origin state false n) : Traced origin state holes n := by
  cases h with
  | absent => exact .absent
  | origin hn h => exact .origin hn h
  | setter hv hs hk => exact .setter hv hs hk
  | update hv hs hf => exact .update hv hs hf
  | hole h => cases h

/-- Nodes at which no problems are reported can have another kind of that sort. -/
theorem Traced.recast {k k' : Kind} {s : Span} {ps qs : List Node}
    (h : Traced origin state holes (.mk k s ps)) (hk : k.isReported = false ∧ k ≠ .absent)
    (hk' : k'.isReported = false) (hname : ∀ x, k = .identifier x → ∃ y, k' = .identifier y) :
    Traced origin state holes (.mk k' s qs) := by
  cases h with
  | absent => exact absurd rfl hk.2
  | origin hn h =>
    refine .origin hn ⟨h.span, fun hreported => ?_⟩
    rw [kind_mk, hk'] at hreported
    cases hreported
  | setter hv hs => exact .setter hv hs hk'
  | update => cases hk.1
  | hole h =>
    obtain ⟨y, rfl⟩ := hname _ rfl
    exact .hole h

/-- The label has the stretch of what it is put on. -/
theorem Traced.labelled (h : Traced origin state false n) (hn : n.kind ≠ .absent) :
    Traced origin state false (.mk (.labeled reactiveLabel) n.span [n]) := by
  cases h with
  | absent => exact absurd rfl hn
  | origin ho h => exact .origin ho ⟨h.span, fun hreported => by cases hreported⟩
  | setter hv hs | update hv hs => exact .setter hv hs rfl
  | hole h => cases h

/-- A node `m` that can take the place of `n`: all its nodes are traced if those of `n`
    are, and it is a function if `n` is. -/
structure Derives (origin : Node → Prop) (state : Text → Prop) (holes : Bool) (n m : Node) :
    Prop where
  all : n.All (Traced origin state holes) → m.All (Traced origin state holes)
  function : n.isFunction = true → m.isFunction = true

namespace Derives

variable {n m : Node} {k k' : Kind} {s : Span} {ps qs : List Node}

theorem refl (n : Node) : Derives origin state holes n n := ⟨id, id⟩

theorem trans {l : Node} (h : Derives origin state holes n m) (h' : Derives origin state holes m l) :
    Derives origin state holes n l := ⟨h'.all ∘ h.all, h'.function ∘ h.function⟩

theorem all_parts (h : List.Forall₂ (Derives origin state holes) ps qs)
    (hps : (Node.mk k s ps).All (Traced origin state holes)) :
    ∀ q ∈ qs, q.All (Traced origin state holes) := by
  intro q hq
  obtain ⟨p, hp, hpq⟩ := exists_of_forall₂ h hq
  exact hpq.all (hps.of_mem hp)

/-- Parts can be replaced. -/
theorem parts (h : List.Forall₂ (Derives origin state holes) ps qs) :
    Derives origin state holes (.mk k s ps) (.mk k s qs) where
  all hn := by
    refine .of_parts ?_ (all_parts h hn)
    cases hn.self with
    | absent => exact .absent
    | origin hn h => exact .origin hn ⟨h.span, h.kind⟩
    | setter hv hs hk => exact .setter hv hs hk
    | update hv hs hf =>
      -- The function that is called is still one.
      cases h with
      | cons hfirst _ => exact .update hv hs (hfirst.function hf)
    | hole h => exact .hole h
  function h := h

theorem map {f : Node → Node} (h : ∀ p ∈ ps, Derives origin state holes p (f p)) :
    Derives origin state holes (.mk k s ps) (.mk k s (ps.map f)) :=
  .parts (List.forall₂_map_right_iff.2 (List.forall₂_same.2 h))

/-- Nodes of which no problems are reported can have another kind of that sort. -/
theorem recast (hk : k.isReported = false ∧ k ≠ .absent) (hk' : k'.isReported = false)
    (hname : ∀ x, k = .identifier x → ∃ y, k' = .identifier y)
    (hfunction : (Node.mk k s ps).isFunction = false)
    (h : List.Forall₂ (Derives origin state holes) ps qs) :
    Derives origin state holes (.mk k s ps) (.mk k' s qs) where
  all hn := .of_parts (hn.self.recast hk hk' hname) (all_parts h hn)
  function hf := by
    rw [hfunction] at hf
    cases hf

theorem list {ss ts : List Node} (h : List.Forall₂ (Derives origin state holes) ss ts)
    (hss : ∀ s ∈ ss, s.All (Traced origin state holes)) : ∀ t ∈ ts, t.All (Traced origin state holes) := by
  intro t ht
  obtain ⟨s, hs, hst⟩ := exists_of_forall₂ h ht
  exact hst.all (hss s hs)

end Derives

/-! ### Steps -/

theorem derives_rename (old new : Text) (n : Node) :
    Derives origin state holes n (n.rename old new) := by
  induction n with
  | mk k s ps ih =>
    have hps : List.Forall₂ (Derives origin state holes) ps (ps.map (rename old new)) :=
      List.forall₂_map_right_iff.2 (List.forall₂_same.2 ih)
    rw [rename, renameList_eq]
    cases k
    case identifier => exact .recast ⟨rfl, by simp⟩ rfl (fun _ _ => ⟨_, rfl⟩) rfl hps
    case target | tagRef | typeName =>
      exact .recast ⟨rfl, by simp⟩ rfl (fun _ h => by cases h) rfl hps
    all_goals exact .parts hps

theorem derives_renameAttributes (n : Node) : Derives origin state holes n n.renameAttributes := by
  induction n with
  | mk k s ps ih =>
    have hps : List.Forall₂ (Derives origin state holes) ps (renameAttributesList ps) := by
      rw [renameAttributesList_eq]
      exact List.forall₂_map_right_iff.2 (List.forall₂_same.2 ih)
    cases k
    case «attribute» space name =>
      cases space with
      | none => exact .recast ⟨rfl, by simp⟩ rfl (fun _ h => by cases h) rfl hps
      | some space => exact .parts hps
    all_goals exact .parts hps

section Blocks

variable {names : List Text}

theorem derives_lowerLists (n : Node) (bs : List Block) :
    Derives origin state true n (n.lowerLists names bs).1 := by
  refine lowerLists_induction .parts (fun {k s ps} i hk => ⟨fun _ => .leaf (.hole rfl), ?_⟩) n bs
  intro hf
  cases k
  case call => cases hf
  all_goals cases hk

theorem derives_lowerChoices (n : Node) (a : Bool) (bs : List Block) :
    Derives origin state true n (n.lowerChoices names a bs).1 := by
  refine lowerChoices_induction .parts (fun {s ps} i => ⟨fun hn => ?_, fun hf => by cases hf⟩) n a bs
  refine .of_parts (hn.self.recast ⟨rfl, by simp⟩ rfl fun _ h => by cases h) ?_
  exact List.forall_mem_singleton.2 (.leaf (.hole rfl))

end Blocks

/-- The assignment in the place of a call of a setter. -/
theorem all_setterCall {v : Text} (hv : state v) {arguments : List Node}
    (h : ∀ a ∈ arguments, a.All (Traced origin state holes)) :
    (setterCall v arguments).All (Traced origin state holes) := by
  have hreference {x : Text} {s : Span} (hs : s ∈ setterSpans v) :
      (reference x s).All (Traced origin state holes) := .leaf (.setter hv hs rfl)
  have hassigning {value : Node} {s : Span} (hs : s ∈ setterSpans v)
      (hvalue : value.All (Traced origin state holes)) :
      (assigning v value s).All (Traced origin state holes) :=
    .of_parts (.setter hv hs rfl) (List.forall_mem_cons.2 ⟨.leaf (.setter hv hs rfl),
      List.forall_mem_singleton.2 hvalue⟩)
  unfold setterCall
  split
  · exact hassigning (by simp [setterSpans]) (hreference (by simp [setterSpans]))
  · next a ha =>
    have ha : a.All (Traced origin state holes) := h a (mem_of_first? ha)
    split
    · next hfunction =>
      have hs : Span.inParens (v ++ " = " ++ Template.hole ++ "(" ++ v ++ ")") ∈ setterSpans v := by
        simp [setterSpans]
      refine hassigning hs (.of_parts (.update hv hs hfunction) ?_)
      exact List.forall_mem_cons.2 ⟨ha, List.forall_mem_cons.2
        ⟨.leaf .absent, List.forall_mem_singleton.2 (hreference hs)⟩⟩
    · exact hassigning (by simp [setterSpans]) ha

theorem derives_assigned {setters : List (Text × Text)} (hsetters : ∀ p ∈ setters, state p.2)
    (n : Node) : Derives origin state holes n (n.assigned setters) := by
  induction n with
  | mk k s ps ih =>
    cases hv : (mk k s ps).sets? setters with
    | none =>
      rw [assigned_of_not_sets hv]
      exact .map ih
    | some v =>
      obtain ⟨x, -, hx⟩ := mem_of_sets hv
      obtain ⟨o, pure, hk⟩ := kind_of_sets hv
      rw [assigned_of_sets hv]
      refine ⟨fun hn => all_setterCall (hsetters _ hx) (List.forall_mem_map.2 fun a ha => ?_),
        fun hf => ?_⟩
      · have ha : a ∈ ps := List.mem_of_mem_drop ha
        exact (ih a ha).all (hn.of_mem ha)
      · rw [isFunction, hk] at hf
        cases hf

/-- A hole can be filled. -/
theorem derives_fill {value : Node} (hvalue : value.All (Traced origin state holes)) (n : Node) :
    Derives origin state holes n (Template.fill value n).1 :=
  fill_induction .refl .parts ⟨fun _ => hvalue, fun hf => by cases hf⟩ n

/-- A tree with its hole filled has its kind and its stretch, unless it is the hole. -/
theorem fill_cases (value n : Node) : (Template.fill value n).1 = value ∨
    (Template.fill value n).1.kind = n.kind ∧ (Template.fill value n).1.span = n.span := by
  obtain ⟨k, s, ps⟩ := n
  cases k
  case identifier x =>
    unfold Template.fill
    split
    · exact .inl rfl
    · exact .inr ⟨rfl, rfl⟩
  all_goals exact .inr ⟨rfl, rfl⟩

/-- What a statement becomes when it is made reactive. -/
theorem all_reactiveForm {typescript : Bool} {s r : Node} {names : List Text}
    (hs : s.All (Traced origin state false))
    (hread : ∀ p init t, s.declared? = some (p, init) →
      Template.read typescript (assignmentTemplate p) = .ok t → t.All origin)
    (h : reactiveForm typescript s = .ok (some (r, names))) :
    r.All (Traced origin state false) := by
  rcases reactiveForm_cases h with ⟨hwrappable, rfl, -⟩ | ⟨p, init, t, hp, ht, rfl, -⟩
  · refine .of_parts (hs.self.labelled fun hk => ?_) (List.forall_mem_singleton.2 hs)
    rw [isWrappable, hk] at hwrappable
    cases hwrappable
  · obtain ⟨hinit, hpresent⟩ : init.All (Traced origin state false) ∧ init.isAbsent = false := by
      unfold declared? at hp
      split at hp
      · split at hp
        · cases hp
        · next hpresent =>
          cases hp
          exact ⟨(hs.of_mem List.mem_cons_self).of_mem (by simp), by simpa using hpresent⟩
      · cases hp
    have ht := hread p init t hp ht
    have hfilled := (derives_fill hinit t).all ht.traced
    refine .of_parts ?_ (List.forall_mem_singleton.2 hfilled)
    rcases fill_cases init t with hfill | ⟨-, hspan⟩
    · rw [hfill]
      refine hinit.self.labelled fun hk => ?_
      rw [isAbsent, hk] at hpresent
      cases hpresent
    · exact .origin ht.self ⟨hspan, fun hreported => by cases hreported⟩

end Node

end Unhook
