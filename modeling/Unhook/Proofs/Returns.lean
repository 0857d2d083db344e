import Unhook.Component.Export
import Unhook.Proofs.Tree

/-!
# Where returns stand

The returns of a tree are those outside its functions and classes. In a tree
that is read from a source they stand among statements only: what a return
gives back has none of its own, nor has any part of a function but its body, and
the returns of different statements of a body are told apart by where they
begin. A tree with these properties throughout is *sound*.

* `Node.returns`: the stretches of the returns of a tree;
* `Node.Sound`: trees in which returns stand where they may;
* `Component.strayReturnList?_eq_none`: no return is astray if and only if the
  only stretch is the one that is allowed.
-/

namespace Unhook

/-- Whether nodes of this kind keep their returns to themselves. -/
def Kind.encloses : Kind → Bool
  | .function _ | .arrow _ | .class _ => true
  | _ => false

/-- Whether nodes of this kind are functions. -/
def Kind.isFunctional : Kind → Bool
  | .function _ | .arrow _ => true
  | _ => false

/-- Whether it matters for nodes of this kind which of their parts have
    returns. -/
@[reducible] def Kind.isReturning : Kind → Bool
  | .returnStatement | .function _ | .arrow _ | .functionBody => true
  | _ => false

namespace Node

mutual

/-- The stretches of the returns of a tree, outside functions and classes. -/
def returns : Node → List Span
  | mk k s ps =>
    if k.encloses then []
    else if k = .returnStatement then s :: returnsList ps
    else returnsList ps

/-- The stretches of the returns of some trees. -/
def returnsList : List Node → List Span
  | [] => []
  | n :: ns => n.returns ++ returnsList ns

end

variable {k : Kind}

theorem returnsList_eq (ns : List Node) : returnsList ns = ns.flatMap returns := by
  induction ns with
  | nil => rfl
  | cons n ns ih => rw [returnsList, ih, List.flatMap_cons]

theorem returns_of_encloses (h : k.encloses = true) (s : Span) (ps : List Node) :
    (mk k s ps).returns = [] := by
  rw [returns, if_pos h]

theorem returns_returnStatement (s : Span) (ps : List Node) :
    (mk .returnStatement s ps).returns = s :: ps.flatMap returns := by
  rw [returns, if_neg (by decide), if_pos rfl, returnsList_eq]

/-- The returns of a node that is none are among those of its parts. -/
theorem mem_parts_of_mem_returns {s t : Span} {ps : List Node}
    (hk : k ≠ .returnStatement) (h : t ∈ (mk k s ps).returns) : ∃ p ∈ ps, t ∈ p.returns := by
  rw [returns, if_neg hk] at h
  split at h
  · cases h
  · exact List.mem_flatMap.1 (returnsList_eq ps ▸ h)

/-- A node that keeps no returns to itself has those of its parts. -/
theorem mem_returns_of_mem_parts {s t : Span} {ps : List Node} {p : Node}
    (hk : k.encloses = false) (hp : p ∈ ps) (h : t ∈ p.returns) : t ∈ (mk k s ps).returns := by
  have hps : t ∈ returnsList ps := returnsList_eq ps ▸ List.mem_flatMap.2 ⟨p, hp, h⟩
  rw [returns, if_neg (by simp [hk])]
  split
  · exact List.mem_cons_of_mem _ hps
  · exact hps

/-! ### Sound trees -/

/-- The returns of each of some nodes begin before those of the next ones. -/
def Apart (ns : List Node) : Prop :=
  ns.Pairwise fun m n => ∀ s ∈ m.returns, ∀ t ∈ n.returns, s.start < t.start

/-- A node that has returns only if it is the body of a function. -/
def Confined (n : Node) : Prop := n.kind = .functionBody ∨ n.returns = []

/-- A tree in which returns stand where they may. -/
inductive Sound : Node → Prop
  | node {k : Kind} {s : Span} {ps : List Node} (parts : ∀ p ∈ ps, Sound p)
      (given : k = .returnStatement → ∀ p ∈ ps, p.returns = [])
      (confined : k.isFunctional = true → ∀ p ∈ ps, Confined p)
      (order : k = .functionBody → Apart ps) : Sound (.mk k s ps)

namespace Sound

variable {k : Kind} {s : Span} {ps : List Node} {n p : Node}

theorem of_mem (h : (Node.mk k s ps).Sound) (hp : p ∈ ps) : p.Sound := by
  cases h with
  | node parts => exact parts p hp

/-- What a return gives back has no returns. -/
theorem given_back (h : (Node.mk .returnStatement s ps).Sound) (hp : p ∈ ps) : p.returns = [] := by
  cases h with
  | node _ given => exact given rfl p hp

/-- The parts of a function have no returns, but for its body. -/
theorem confined (h : (Node.mk k s ps).Sound) (hk : k.isFunctional = true)
    (hp : p ∈ ps) : p.Confined := by
  cases h with
  | node _ _ confined => exact confined hk p hp

/-- The returns of the statements of a body come one after the other. -/
theorem apart (h : (Node.mk .functionBody s ps).Sound) : Apart ps := by
  cases h with
  | node _ _ _ order => exact order rfl

/-- A node for which it does not matter where its returns stand is sound if its
    parts are. -/
theorem of_parts (hk : k.isReturning = false) (h : ∀ p ∈ ps, p.Sound) : (Node.mk k s ps).Sound := by
  refine .node h ?_ ?_ ?_
  · rintro rfl
    cases hk
  · intro hf
    have hreturning : k.isReturning = true := by
      cases k <;> first | rfl | cases hf
    rw [hk] at hreturning
    cases hreturning
  · rintro rfl
    cases hk

/-- A function is sound if its parts are, and have no returns but for its body. -/
theorem of_confined (hk : k.isFunctional = true) (h : ∀ p ∈ ps, p.Sound ∧ p.Confined) :
    (Node.mk k s ps).Sound := by
  refine .node (fun p hp => (h p hp).1) ?_ (fun _ p hp => (h p hp).2) ?_
  · rintro rfl
    cases hk
  · rintro rfl
    cases hk

end Sound

end Node

/-! ### Returns that are astray -/

namespace Component

variable {last : Span}

theorem strayReturnList?_eq_none_of_parts {ns : List Node}
    (h : ∀ n ∈ ns, strayReturn? last n = none ↔ ∀ s ∈ n.returns, s = last) :
    strayReturnList? last ns = none ↔ ∀ n ∈ ns, ∀ s ∈ n.returns, s = last := by
  induction ns with
  | nil => simp [strayReturnList?]
  | cons n ns ih =>
    rw [strayReturnList?, Option.or_eq_none_iff, h n List.mem_cons_self,
      ih fun m hm => h m (List.mem_cons_of_mem _ hm), List.forall_mem_cons]

theorem strayReturn?_mk (last : Span) (k : Kind) (s : Span) (ps : List Node) :
    strayReturn? last (.mk k s ps) =
      if k.encloses then none
      else if k = .returnStatement ∧ s ≠ last then some s
      else strayReturnList? last ps := by
  cases k
  case returnStatement => by_cases hs : s = last <;> simp [strayReturn?, Kind.encloses, hs]
  all_goals rfl

theorem strayReturn?_eq_none {n : Node} :
    strayReturn? last n = none ↔ ∀ s ∈ n.returns, s = last := by
  induction n with
  | mk k s ps ih =>
    rw [strayReturn?_mk, Node.returns]
    split
    · simp
    · have hps : strayReturnList? last ps = none ↔ ∀ t ∈ Node.returnsList ps, t = last := by
        rw [strayReturnList?_eq_none_of_parts ih, Node.returnsList_eq]
        exact ⟨fun h t ht => (List.mem_flatMap.1 ht).elim fun n hn => h n hn.1 t hn.2,
          fun h n hn t ht => h t (List.mem_flatMap.2 ⟨n, hn, ht⟩)⟩
      by_cases hk : k = .returnStatement
      · by_cases hs : s = last <;> simp [hk, hs, hps]
      · simp [hk, hps]

/-- No return is astray if and only if all returns are at `last`. -/
theorem strayReturnList?_eq_none {ns : List Node} :
    strayReturnList? last ns = none ↔ ∀ n ∈ ns, ∀ s ∈ n.returns, s = last :=
  strayReturnList?_eq_none_of_parts fun _ _ => strayReturn?_eq_none

end Component

end Unhook
