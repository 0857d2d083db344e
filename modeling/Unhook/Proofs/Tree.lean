import Unhook.Syntax.View

/-!
# Walks over trees

Trees are proved about by induction on their nodes, the parts of a node coming
before it (`Node.ind`). A *path* leads from a node to one of the nodes within
it, by the positions of the parts on the way: it says where in a tree something
stands, also when the same thing stands there twice (`Node.at?`).
-/

namespace Unhook.Node

variable {q : Node → Bool} {n m : Node} {x : Text}

/-- Induction on trees. -/
@[elab_as_elim, induction_eliminator]
theorem ind {motive : Node → Prop}
    (mk : ∀ k s ps, (∀ n ∈ ps, motive n) → motive (.mk k s ps)) (n : Node) : motive n :=
  @Node.rec motive (fun ps => ∀ n ∈ ps, motive n) mk
    (fun _ h => absurd h List.not_mem_nil)
    (fun _ _ hn hns m hm => (List.mem_cons.1 hm).elim (fun h => h ▸ hn) (hns m)) n

@[simp] theorem kind_mk (k : Kind) (s : Span) (ps : List Node) : (mk k s ps).kind = k := rfl

@[simp] theorem span_mk (k : Kind) (s : Span) (ps : List Node) : (mk k s ps).span = s := rfl

@[simp] theorem parts_mk (k : Kind) (s : Span) (ps : List Node) : (mk k s ps).parts = ps := rfl

theorem identifier?_eq_some : n.identifier? = some x ↔ n.kind = .identifier x := by
  obtain ⟨k, s, ps⟩ := n
  cases k <;> simp [identifier?]

theorem identifier?_congr (h : m.kind = n.kind) : m.identifier? = n.identifier? := by
  obtain ⟨k, s, ps⟩ := n
  obtain ⟨k', s', ps'⟩ := m
  obtain rfl : k' = k := h
  cases k' <;> rfl

theorem binding?_eq_some : n.binding? = some x ↔ n.kind = .binding x := by
  obtain ⟨k, s, ps⟩ := n
  cases k <;> simp [binding?]

theorem target?_eq_some : n.target? = some x ↔ n.kind = .target x := by
  obtain ⟨k, s, ps⟩ := n
  cases k <;> simp [target?]

theorem any_mk (p : Node → Bool) (k : Kind) (s : Span) (ps : List Node) :
    (mk k s ps).any p = (p (mk k s ps) || anyList p ps) := by
  rw [any]

theorem anyList_eq (p : Node → Bool) (ns : List Node) : anyList p ns = ns.any (any p) := by
  induction ns with
  | nil => rfl
  | cons n ns ih => rw [anyList, ih, List.any_cons]

theorem findList?_eq_none {p : Node → Bool} {ns : List Node} :
    findList? p ns = none ↔ ∀ n ∈ ns, n.find? p = none := by
  induction ns with
  | nil => simp [findList?]
  | cons n ns ih => rw [findList?, Option.or_eq_none_iff, ih, List.forall_mem_cons]

theorem find?_eq_none {p : Node → Bool} :
    n.find? p = none ↔ p n = false ∧ ∀ m ∈ n.parts, m.find? p = none := by
  cases n with
  | mk k s ps =>
    rw [find?, parts_mk, ← findList?_eq_none]
    cases p (mk k s ps) <;> simp

theorem mem_of_first? {as : List Node} {a : Node} (h : first? as = some a) : a ∈ as := by
  unfold first? at h
  split at h <;> cases h
  exact List.mem_cons_self

theorem mem_of_firstArgument? {n a : Node} (h : n.firstArgument? = some a) : a ∈ n.parts :=
  List.mem_of_mem_drop (mem_of_first? h)

/-- The node that a path leads to. -/
def at? (n : Node) : (path : List Nat) → Option Node
  | [] => some n
  | i :: p => n.parts[i]?.bind (·.at? p)

@[simp] theorem at?_nil (n : Node) : n.at? [] = some n := rfl

@[simp] theorem at?_cons (n : Node) (i : Nat) (p : List Nat) :
    n.at? (i :: p) = n.parts[i]?.bind (·.at? p) := rfl

theorem any_of_mem (hm : m ∈ n.parts) (h : m.any q = true) : n.any q = true := by
  obtain ⟨k, s, ps⟩ := n
  rw [any_mk, anyList_eq, Bool.or_eq_true]
  exact .inr (List.any_eq_true.2 ⟨m, hm, h⟩)

/-- What is found within a node that a path leads to is found. -/
theorem any_of_at? {path : List Nat} (hm : n.at? path = some m)
    (h : m.any q = true) : n.any q = true := by
  induction path generalizing n with
  | nil =>
    cases hm
    exact h
  | cons i path ih =>
    obtain ⟨a, ha, hm⟩ := Option.bind_eq_some_iff.1 hm
    exact any_of_mem (List.mem_of_getElem? ha) (ih hm)

/-- What is not found in a tree is none of its nodes. -/
theorem eq_false_of_find?_eq_none {path : List Nat}
    (h : n.find? q = none) (hm : n.at? path = some m) : q m = false := by
  induction path generalizing n with
  | nil =>
    obtain rfl := Option.some.inj hm
    exact (find?_eq_none.1 h).1
  | cons i path ih =>
    obtain ⟨a, ha, hm⟩ := Option.bind_eq_some_iff.1 hm
    exact ih ((find?_eq_none.1 h).2 a (List.mem_of_getElem? ha)) hm

/-- Induction on trees in which all that is within a node comes before it. -/
theorem strongInd {motive : Node → Prop}
    (step : ∀ n, (∀ i p m, n.at? (i :: p) = some m → motive m) → motive n) (n : Node) :
    motive n := by
  suffices h : ∀ p m, n.at? p = some m → motive m from h [] n rfl
  induction n with
  | mk k s ps ih =>
    have hwithin (i : Nat) (p : List Nat) (m : Node)
        (h : (mk k s ps).at? (i :: p) = some m) : motive m := by
      obtain ⟨n, hn, hm⟩ := Option.bind_eq_some_iff.1 h
      exact ih n (List.mem_of_getElem? hn) p m hm
    intro p m h
    cases p with
    | nil => exact Option.some.inj h ▸ step _ hwithin
    | cons i p => exact hwithin i p m h

end Unhook.Node
