import Unhook.Proofs.Inlining
import Unhook.Proofs.Scope

/-!
# References that are left

When markup variables are removed, a reference to one of them is left unless it
stands alone in a hole, which is filled. What is put into a hole can bring in
references of its own. A reference counts only where nothing around it binds its
name.

* `Node.refers`: whether a tree refers to a name from outside;
* `MarkupTable.Leaves`: whether a tree refers to a name other than by holes that
  are filled, by itself or through the values of variables;
* `MarkupTable.Acyclic.refers_fill_iff`: for variables that are not shown within
  themselves, a tree with its holes filled refers to exactly what it leaves.
-/

namespace Unhook

namespace Node

mutual

/-- Whether a tree refers to a name that nothing around the reference binds. -/
def refers (x : Text) : Node → Bool
  | mk k s ps => k.reference? = some x || refersParts x (mk k s ps).binds 0 ps

/-- Whether some parts, of which the one at `i` stands where the names `binds i`
    are bound, refer to another name. -/
def refersParts (x : Text) (binds : Nat → List Text) (i : Nat) : List Node → Bool
  | [] => false
  | p :: ps => !(binds i).contains x && refers x p || refersParts x binds (i + 1) ps

end

theorem refersParts_iff {x : Text} {binds : Nat → List Text} {i : Nat} {ps : List Node} :
    refersParts x binds i ps = true ↔
      ∃ (j : Nat) (p : Node), ps[j]? = some p ∧ x ∉ binds (i + j) ∧ p.refers x = true := by
  induction ps generalizing i with
  | nil => simp [refersParts]
  | cons p ps ih =>
    rw [refersParts, Bool.or_eq_true, ih]
    constructor
    · rintro (h | ⟨j, q, hq, hx, h⟩)
      · exact ⟨0, p, rfl, by simpa using h⟩
      · exact ⟨j + 1, q, hq, by rwa [← Nat.add_right_comm, Nat.add_assoc i] at hx, h⟩
    · rintro ⟨_ | j, q, hq, hx, h⟩
      · obtain rfl := Option.some.inj hq
        exact .inl (by simpa [h] using hx)
      · exact .inr ⟨j, q, hq, by rwa [← Nat.add_assoc, Nat.add_right_comm] at hx, h⟩

theorem refers_iff {x : Text} {n : Node} : n.refers x = true ↔ n.kind.reference? = some x ∨
    ∃ (i : Nat) (p : Node), n.parts[i]? = some p ∧ x ∉ n.binds i ∧ p.refers x = true := by
  obtain ⟨k, s, ps⟩ := n
  rw [refers, Bool.or_eq_true, refersParts_iff, decide_eq_true_eq]
  simp only [Nat.zero_add, kind_mk, parts_mk]

/-- The name that a node holds, if it is a hole. -/
def holeName? : Node → Option Text
  | mk .container _ [e] => e.identifier?
  | _ => none

mutual

/-- The names that holes of a tree hold. -/
def holeNames : Node → List Text
  | mk k s ps => (mk k s ps).holeName?.toList ++ holeNamesList ps

/-- The names that holes of some trees hold. -/
def holeNamesList : List Node → List Text
  | [] => []
  | n :: ns => holeNames n ++ holeNamesList ns

end

variable {r : Text → Option Node} {x : Text} {n : Node}

theorem holeNamesList_eq (ns : List Node) : holeNamesList ns = ns.flatMap holeNames := by
  induction ns with
  | nil => rfl
  | cons n ns ih => rw [holeNamesList, ih, List.flatMap_cons]

theorem mem_holeNames_of_part {n p : Node} {y : Text} (hp : p ∈ n.parts) (hy : y ∈ p.holeNames) :
    y ∈ n.holeNames := by
  obtain ⟨k, s, ps⟩ := n
  rw [holeNames, holeNamesList_eq]
  exact List.mem_append_right _ (List.mem_flatMap.2 ⟨p, hp, hy⟩)

theorem mem_holeNames_self {y : Text} (h : n.holeName? = some y) : y ∈ n.holeNames := by
  obtain ⟨k, s, ps⟩ := n
  rw [holeNames, h]
  exact List.mem_append_left _ (by simp)

/-! ### Filling a hole, and filling the holes of parts -/

/-- A part of markup with its holes filled: a hole that holds a name is
    replaced. -/
def fillPart (r : Text → Option Node) : Node → Node
  | mk .container s [e] =>
    match e.identifier?.bind r with
    | some v => inHole s v
    | none => mk .container s [e.substitute r]
  | n => n.substitute r

theorem substituteChildren_eq (r : Text → Option Node) (ns : List Node) :
    substituteChildren r ns = ns.map (fillPart r) := by
  induction ns with
  | nil => rfl
  | cons n ns ih =>
    rw [List.map_cons, ← ih]
    rcases Classical.em (∃ s e, n = mk .container s [e]) with ⟨s, e, rfl⟩ | hn
    · cases hv : e.identifier?.bind r <;> simp only [substituteChildren, fillPart, hv]
    · rw [substituteChildren, fillPart]
      · exact fun s e h => hn ⟨s, e, h⟩
      · exact fun s e h => hn ⟨s, e, h⟩

theorem substituteList_eq (r : Text → Option Node) (ns : List Node) :
    substituteList r ns = ns.map (substitute r) := by
  induction ns with
  | nil => rfl
  | cons n ns ih => rw [substituteList, ih, List.map_cons]

/-- To relate trees to what they are with their holes filled, it is enough to relate a
    node to one whose parts are related to its own, and a hole to what it is filled with
    or replaced by. -/
theorem substitute_induction {R : Node → Node → Prop}
    (map : ∀ {k s ps} {f : Node → Node}, (∀ p ∈ ps, R p (f p)) → R (mk k s ps) (mk k s (ps.map f)))
    (hole : ∀ {s e x v}, r x = some v → R (mk .container s [e]) (mk .container s [v]))
    (part : ∀ {s e x v}, r x = some v → R (mk .container s [e]) (inHole s v)) (n : Node) :
    R n (n.substitute r) := by
  induction n with
  | mk k s ps ih =>
    have hparts : R (mk k s ps) (mk k s (ps.map (fillPart r))) := by
      refine map fun p hp => ?_
      have h := ih p hp
      unfold fillPart
      split
      · split
        · next v hv =>
          obtain ⟨x, -, hx⟩ := Option.bind_eq_some_iff.1 hv
          exact part hx
        · next hv => rwa [substitute_container hv] at h
      · exact h
    have hlist : R (mk k s ps) (mk k s (ps.map (substitute r))) := map ih
    rw [← substituteChildren_eq] at hparts
    rw [← substituteList_eq] at hlist
    unfold substitute
    split
    case h_1 | h_2 => exact hparts
    case h_3 e =>
      split
      · next v hv =>
        obtain ⟨x, -, hx⟩ := Option.bind_eq_some_iff.1 hv
        exact hole hx
      · exact hlist
    case h_4 => exact hlist

/-- A node that is no markup and no hole has the holes of its parts filled. -/
theorem substitute_mk {k : Kind}
    (hk : k ≠ .element ∧ k ≠ .fragment ∧ k ≠ .container) (s : Span) (ps : List Node) :
    (mk k s ps).substitute r = mk k s (ps.map (substitute r)) := by
  rw [← substituteList_eq, substitute]
  · exact hk.1
  · exact hk.2.1
  · exact fun e h => (hk.2.2 h).elim

theorem refers_container {s : Span} {e : Node} :
    (mk .container s [e]).refers x = true ↔ e.refers x = true := by
  rw [refers_iff]
  constructor
  · rintro (h | ⟨i, p, hp, -, h⟩)
    · cases h
    · exact List.mem_singleton.1 (List.mem_of_getElem? hp) ▸ h
  · exact fun h => .inr ⟨0, e, rfl, List.not_mem_nil, h⟩

theorem refers_inHole {s : Span} {v : Node} : (inHole s v).refers x = true ↔ v.refers x = true := by
  unfold inHole
  split
  · exact Iff.rfl
  · exact refers_container

/-- A hole that is filled refers to what it is filled with refers to. -/
theorem refers_substitute_hole {n v : Node}
    (h : n.holeName?.bind r = some v) : (n.substitute r).refers x = true ↔ v.refers x = true := by
  unfold holeName? at h
  split at h
  · rw [substitute, h]
    exact refers_container
  · cases h

/-- Among the parts of markup holes are replaced, which makes no difference for
    what is referred to. -/
theorem refers_fillPart : (fillPart r n).refers x = true ↔ (n.substitute r).refers x = true := by
  unfold fillPart
  split
  · next s e =>
    cases hv : e.identifier?.bind r with
    | some v => exact refers_inHole.trans (refers_substitute_hole (n := mk .container s [e]) hv).symm
    | none => rw [substitute_container hv]
  · exact Iff.rfl

theorem keepsScopes_substitute (r : Text → Option Node) : KeepsScopes (substitute r) where
  step n := by
    obtain ⟨k, s, ps⟩ := n
    unfold substitute
    split
    case h_1 | h_2 => exact .inr ⟨rfl, rfl⟩
    case h_3 => exact .inr ⟨rfl, by split <;> rfl⟩
    case h_4 => exact .inl (by rw [substituteList_eq, kind_mk, span_mk, parts_mk])

/-- The holes of a node that is none that is filled are filled part by part. -/
theorem parts_substitute (h : n.holeName?.bind r = none) :
    (n.substitute r).parts = n.parts.map (fillPart r) ∨
      (n.substitute r).parts = n.parts.map (substitute r) := by
  obtain ⟨k, s, ps⟩ := n
  generalize hm : (mk k s ps).substitute r = m
  unfold substitute at hm
  split at hm
  case h_1 | h_2 => exact .inl (hm ▸ substituteChildren_eq r ps)
  case h_3 e =>
    rw [holeName?] at h
    rw [h] at hm
    exact .inr (hm ▸ rfl)
  case h_4 => exact .inr (hm ▸ substituteList_eq r ps)

/-- A node that is no filled hole refers to what it refers to by itself, and
    what its parts refer to when their holes are filled. -/
theorem refers_substitute_parts (h : n.holeName?.bind r = none) :
    (n.substitute r).refers x = true ↔ n.kind.reference? = some x ∨
      ∃ (i : Nat) (p : Node), n.parts[i]? = some p ∧ x ∉ n.binds i ∧
        (p.substitute r).refers x = true := by
  rw [refers_iff, kind_substitute]
  simp only [binds_kept (keepsScopes_substitute r)]
  refine or_congr_right (exists_congr fun i => ?_)
  rcases parts_substitute h with hparts | hparts
  all_goals
    rw [hparts]
    simp only [List.getElem?_map, Option.map_eq_some_iff]
    constructor
    · rintro ⟨_, ⟨p, hp, rfl⟩, hx, h⟩
      exact ⟨p, hp, hx, by simpa only [refers_fillPart] using h⟩
    · rintro ⟨p, hp, hx, h⟩
      exact ⟨_, ⟨p, hp, rfl⟩, hx, by simpa only [refers_fillPart] using h⟩

end Node

/-! ### Values within values -/

namespace MarkupTable

variable {active : List Text} {fuel : Nat} {n v : Node} {y : Text}

open Node

/-- Whether the variable `z` is shown within the value of `y`, directly or
    through others. -/
inductive Within (t : MarkupTable) (z : Text) : (y : Text) → Prop
  | hole {y : Text} {v : Node} : t.value? y = some v → z ∈ v.holeNames → Within t z y
  | deeper {y y' : Text} {v : Node} : t.value? y = some v → y' ∈ v.holeNames → Within t z y' →
    Within t z y

/-- Markup variables none of which is shown within itself. -/
def Acyclic (t : MarkupTable) : Prop := ∀ y, ¬t.Within y y

/-- Whether a tree refers to `x` other than by a hole that is filled, by itself
    or through the values that are put into holes. -/
inductive Leaves (t : MarkupTable) (x : Text) : (n : Node) → Prop
  | self {n : Node} : n.kind.reference? = some x → Leaves t x n
  | part {n p : Node} {i : Nat} : n.holeName?.bind t.value? = none → n.parts[i]? = some p →
    x ∉ n.binds i → Leaves t x p → Leaves t x n
  | value {n v : Node} : n.holeName?.bind t.value? = some v → Leaves t x v → Leaves t x n

variable {t : MarkupTable} {x : Text}

theorem leaves_iff_of_parts (h : n.holeName?.bind t.value? = none) :
    t.Leaves x n ↔ n.kind.reference? = some x ∨
      ∃ (i : Nat) (p : Node), n.parts[i]? = some p ∧ x ∉ n.binds i ∧ t.Leaves x p := by
  constructor
  · intro hn
    cases hn with
    | self hx => exact .inl hx
    | part _ hp hx hn => exact .inr ⟨_, _, hp, hx, hn⟩
    | value hv _ => cases hv.symm.trans h
  · rintro (hx | ⟨i, p, hp, hx, hn⟩)
    · exact .self hx
    · exact .part h hp hx hn

theorem leaves_iff_of_value (h : n.holeName?.bind t.value? = some v) :
    t.Leaves x n ↔ t.Leaves x v := by
  refine ⟨fun hn => ?_, .value h⟩
  cases hn with
  | self hx =>
    -- A hole by itself refers to nothing.
    unfold holeName? at h
    split at h
    · cases hx
    · cases h
  | part hv _ _ _ => cases hv.symm.trans h
  | value hv hn => exact Option.some.inj (hv.symm.trans h) ▸ hn

theorem Within.trans_hole {y z a : Text} {v : Node} (h : t.Within y a) (hv : t.value? y = some v)
    (hz : z ∈ v.holeNames) : t.Within z a := by
  induction h with
  | hole hu hy => exact .deeper hu hy (.hole hv hz)
  | deeper hu hy _ ih => exact .deeper hu hy ih

/-- What is known where the holes of `n` are filled within the values of the
    variables `active`, with the given fuel. -/
structure Pending (t : MarkupTable) (fuel : Nat) (active : List Text) (n : Node) : Prop where
  fuel : fuel + active.length = t.length + 1
  nodup : active.Nodup
  known : active ⊆ t.map (·.1)
  within : ∀ a ∈ active, ∀ z ∈ n.holeNames, t.Within z a

theorem Pending.part {n p : Node}
    (h : t.Pending fuel active n) (hp : p ∈ n.parts) : t.Pending fuel active p :=
  { h with within := fun a ha z hz => h.within a ha z (mem_holeNames_of_part hp hz) }

theorem resolveWithin_eq_none (h : t.value? y = none) : t.resolveWithin fuel active y = none := by
  cases fuel with
  | zero => rfl
  | succ fuel => simp [MarkupTable.resolveWithin, h]

/-- Fuel does not run out before a variable is met within whose value the hole
    stands. -/
theorem Pending.enter (h : t.Pending fuel active n) (hy : y ∈ n.holeNames) (hnew : y ∉ active)
    (hv : t.value? y = some v) : ∃ fuel', fuel = fuel' + 1 ∧
      t.resolveWithin fuel active y = some (v.substitute (t.resolveWithin fuel' (y :: active))) ∧
      t.Pending fuel' (y :: active) v := by
  have hlength : active.length ≤ t.length := by
    simpa using h.nodup.length_le_of_subset h.known
  obtain ⟨fuel', rfl⟩ : ∃ fuel', fuel = fuel' + 1 :=
    ⟨fuel - 1, by have := h.fuel; omega⟩
  refine ⟨fuel', rfl, by simp [MarkupTable.resolveWithin, hnew, hv], ?_⟩
  refine ⟨by have := h.fuel; simp only [List.length_cons]; omega, List.nodup_cons.2 ⟨hnew, h.nodup⟩, ?_, ?_⟩
  · exact List.cons_subset.2 ⟨List.mem_map_of_mem (mem_of_value? hv), h.known⟩
  · intro a ha z hz
    rcases List.mem_cons.1 ha with rfl | ha
    · exact .hole hv hz
    · exact (h.within a ha y hy).trans_hole hv hz

/-- For variables that are not shown within themselves no value is refused. -/
theorem Pending.resolveWithin
    (ht : t.Acyclic) (h : t.Pending fuel active n) (hy : n.holeName? = some y)
    (hv : t.value? y = some v) : ∃ fuel', fuel = fuel' + 1 ∧
      t.resolveWithin fuel active y = some (v.substitute (t.resolveWithin fuel' (y :: active))) ∧
      t.Pending fuel' (y :: active) v :=
  have hself := mem_holeNames_self hy
  h.enter hself (fun ha => ht y (h.within y ha y hself)) hv

/-- For variables that are not shown within themselves, a tree with its holes
    filled refers to what it leaves. -/
theorem Acyclic.refers_fill_iff (ht : t.Acyclic) (h : t.Pending fuel active n) :
    (n.substitute (t.resolveWithin fuel active)).refers x = true ↔ t.Leaves x n := by
  induction fuel using Nat.strongRecOn generalizing active n with
  | ind fuel ihfuel =>
    induction n with
    | mk k s ps ih =>
      cases hv : (mk k s ps).holeName?.bind t.value? with
      | some v =>
        obtain ⟨y, hy, hyv⟩ := Option.bind_eq_some_iff.1 hv
        obtain ⟨fuel', rfl, hfill, hpending⟩ := h.resolveWithin ht hy hyv
        rw [← Option.bind_some (a := y) (f := t.resolveWithin _ _), ← hy] at hfill
        rw [refers_substitute_hole hfill, leaves_iff_of_value hv]
        exact ihfuel fuel' (Nat.lt_succ_self _) hpending
      | none =>
        have hfill : (mk k s ps).holeName?.bind (t.resolveWithin fuel active) = none := by
          rw [Option.bind_eq_none_iff] at hv ⊢
          intro y hy
          exact resolveWithin_eq_none (hv y hy)
        rw [refers_substitute_parts hfill, leaves_iff_of_parts hv]
        refine or_congr_right (exists_congr fun i => exists_congr fun p =>
          and_congr_right fun hp => and_congr_right fun _ => ?_)
        have hp := List.mem_of_getElem? hp
        exact ih p hp (h.part hp)

/-- What is true of the values that are put into the holes of statements. -/
theorem Acyclic.refers_substitute_iff (ht : t.Acyclic) :
    (n.substitute t.resolve).refers x = true ↔ t.Leaves x n :=
  ht.refers_fill_iff ⟨rfl, List.nodup_nil, List.nil_subset _, nofun⟩

/-- Variables are not shown within themselves if there is an order in which each
    shows only earlier ones. -/
theorem acyclic_of_rank (rank : Text → Nat)
    (h : ∀ p ∈ t, ∀ z ∈ p.2.holeNames, rank z < rank p.1) : t.Acyclic := by
  have hwithin (y z : Text) (hz : t.Within z y) : rank z < rank y := by
    induction hz with
    | hole hv hz => exact h _ (mem_of_value? hv) _ hz
    | deeper hv hy _ ih => exact Nat.lt_trans ih (h _ (mem_of_value? hv) _ hy)
  exact fun y hy => Nat.lt_irrefl _ (hwithin y y hy)

end MarkupTable

end Unhook
