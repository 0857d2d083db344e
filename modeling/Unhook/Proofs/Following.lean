import Unhook.Proofs.Closure
import Unhook.Proofs.Correspondence

/-!
# What is followed

A statement that reads a followed name runs again when that name changes, so it
is put under the reactive label, and the names that it gives values to are
followed in turn. Which statements can be labelled, and which names they give, is
decided by their form: a declaration gives the names of its pattern, if it
declares one variable, and an assignment of its own gives the name on its left. An
assignment that is nested in a labelled statement gives nothing.

The rounds over the body end when nothing is left to do: a round that labels a
statement leaves fewer that are open (`Component.propagate_done`).

* `Component.Spread`: what labelling statements one after the other makes of a
  component;
* `Component.labelled_of_reads`: which statements are labelled.
-/

namespace Unhook

namespace Node

variable {s : Node} {x : Text}

/-- What a node reads is nothing, a name, what its parts read, or what a node within it
    reads, whatever the names are. -/
theorem reads_cases (n : Node) : (∀ names, n.reads names = false) ∨
    (∃ x, ∀ names, n.reads names = names.contains x) ∨
    (∀ names, n.reads names = n.parts.any (reads names)) ∨
    ∃ i p m, n.at? (i :: p) = some m ∧ ∀ names, n.reads names = m.reads names := by
  obtain ⟨k, s, ps⟩ := n
  have hlist (names : List Text) : readsList names ps = ps.any (reads names) := by
    induction ps with
    | nil => rfl
    | cons p ps ih => rw [readsList, ih, List.any_cons]
  have hmemo : (∀ names, readsMemo names ps = false) ∨
      ∃ i p m, (mk k s ps).at? (i :: p) = some m ∧ ∀ names, readsMemo names ps = m.reads names := by
    rcases ps with _ | ⟨c, _ | ⟨t, _ | ⟨a, as⟩⟩⟩
    · exact .inl fun _ => rfl
    · exact .inl fun _ => rfl
    · exact .inl fun _ => rfl
    · -- What is read is the body of the function, or the argument itself.
      unfold readsMemo
      split
      · next b => exact .inr ⟨2, [3], b, rfl, fun _ => rfl⟩
      · next b => exact .inr ⟨2, [4], b, rfl, fun _ => rfl⟩
      · exact .inl fun _ => rfl
      · exact .inr ⟨2, [], a, rfl, fun _ => rfl⟩
  simp only [reads.eq_def _ (mk k s ps)]
  split
  · exact .inl fun _ => rfl
  · exact .inl fun _ => rfl
  · exact .inl fun _ => rfl
  · exact .inl fun _ => rfl
  · split
    · exact hmemo.imp_right fun h => .inr (.inr h)
    · exact .inr (.inr (.inl hlist))
    · exact .inr (.inr (.inl hlist))
    · exact .inl fun _ => rfl
  · split
    · next x _ => exact .inr (.inl ⟨x, fun _ => rfl⟩)
    · exact .inr (.inr (.inl hlist))

/-- What a statement reads it reads name by name. -/
theorem reads_iff {names : List Text} {n : Node} :
    n.reads names = true ↔ ∃ x ∈ names, n.reads [x] = true := by
  induction n using strongInd with
  | step n ih =>
    rcases reads_cases n with h | ⟨x, h⟩ | h | ⟨i, p, m, hm, h⟩
    · simp [h]
    · simp [h]
    · have ih (p : Node) (hp : p ∈ n.parts) :
          p.reads names = true ↔ ∃ x ∈ names, p.reads [x] = true := by
        obtain ⟨i, hi⟩ := List.mem_iff_getElem?.1 hp
        exact ih i [] p (by rw [at?_cons, hi]; rfl)
      simp only [h, List.any_eq_true]
      constructor
      · rintro ⟨p, hp, hreads⟩
        obtain ⟨x, hx, hreads⟩ := (ih p hp).1 hreads
        exact ⟨x, hx, p, hp, hreads⟩
      · rintro ⟨x, hx, p, hp, hreads⟩
        exact ⟨p, hp, (ih p hp).2 ⟨x, hx, hreads⟩⟩
    · simp only [h]
      exact ih i p m hm

/-- What is read with some names is read with more of them. -/
theorem reads_mono {names names' : List Text} (h : names ⊆ names') (n : Node)
    (hn : n.reads names = true) : n.reads names' = true := by
  obtain ⟨x, hx, hn⟩ := reads_iff.1 hn
  exact reads_iff.2 ⟨x, h hx, hn⟩

/-! ### The forms of statements -/

/-- Whether a statement can be made reactive. -/
def isReactable (s : Node) : Bool := s.isWrappable || s.declared?.isSome

/-- The names that a statement gives values to when it is made reactive. -/
def gives (s : Node) : List Text :=
  match s.declared? with
  | some (p, _) => p.names
  | none => s.assignedName?.toList

theorem declared?_of_isWrappable (h : s.isWrappable = true) : s.declared? = none := by
  refine Option.eq_none_iff_forall_ne_some.2 fun x hx => ?_
  obtain ⟨k, d, hk⟩ := declared?_kind hx
  exact (isWrappable_kind h).2.2.1 k d hk

theorem kind_of_isReactable (h : s.isReactable = true) (l : Text) : s.kind ≠ .labeled l := by
  rcases Bool.or_eq_true_iff.1 h with hw | hp
  · exact (isWrappable_kind hw).1 l
  · obtain ⟨x, hx⟩ := Option.isSome_iff_exists.1 hp
    obtain ⟨k, d, hk⟩ := declared?_kind hx
    simp [hk]

theorem of_reactiveForm_eq_some {typescript : Bool} {s r : Node} {names : List Text}
    (h : reactiveForm typescript s = .ok (some (r, names))) :
    s.isReactable = true ∧ r.kind = .labeled reactiveLabel ∧ names = s.gives := by
  rcases reactiveForm_cases h with ⟨hw, rfl, rfl⟩ | ⟨p, init, a, hp, -, rfl, rfl⟩
  · exact ⟨by simp [isReactable, hw], rfl, by rw [gives, declared?_of_isWrappable hw]⟩
  · exact ⟨by simp [isReactable, hp], rfl, by rw [gives, hp]⟩

theorem of_reactiveForm_eq_none {typescript : Bool}
    (h : reactiveForm typescript s = .ok none) : s.isReactable = false := by
  unfold reactiveForm at h
  split at h
  · next p note init =>
    split at h
    · next hinit => simp [isReactable, isWrappable, declared?, hinit]
    · obtain ⟨a, -, h⟩ := of_bind_eq_ok h
      cases h
  · next hdeclaration =>
    have hw : s.isWrappable = false := by
      cases hw : s.isWrappable with
      | false => rfl
      | true =>
        rw [hw] at h
        cases h
    have hnone : s.declared? = none := by
      unfold declared?
      split
      · exact (hdeclaration _ _ _ _ _ _ _ _ rfl).elim
      · rfl
    simp [isReactable, hw, hnone]

variable {setters : List (Text × Text)}

theorem declared?_assigned {n p init : Node} (h : n.declared? = some (p, init)) :
    (n.assigned setters).declared? = some (p.assigned setters, init.assigned setters) := by
  unfold declared? at h
  split at h
  · next k d sp k' sp' p note init =>
    split at h
    · cases h
    · next hinit =>
      cases h
      rw [assigned_of_kind (by simp)]
      simp only [kind_mk, span_mk, parts_mk, List.map_cons, List.map_nil]
      rw [assigned_of_kind (by simp)]
      simp only [kind_mk, span_mk, parts_mk, List.map_cons, List.map_nil]
      rw [declared?, isAbsent_assigned, if_neg hinit]
  · cases h

theorem isReactable_assigned (s : Node) : (s.assigned setters).isReactable = s.isReactable := by
  rw [Bool.eq_iff_iff]
  simp only [isReactable, Bool.or_eq_true, Option.isSome_iff_exists, Prod.exists]
  constructor
  · rintro (hw | ⟨p, init, hp⟩)
    · exact .inl (isWrappable_of_assigned hw)
    · obtain ⟨q, e, hq, -⟩ := of_declared?_assigned hp
      exact .inr ⟨q, e, hq⟩
  · rintro (hw | ⟨p, init, hp⟩)
    · left
      unfold isWrappable at hw ⊢
      rwa [kind_assigned_of_ne (isWrappable_kind hw).2.1]
    · exact .inr ⟨_, _, declared?_assigned hp⟩

theorem declared?_eq_none_of_assigned {n : Node} :
    (n.assigned setters).declared? = none ↔ n.declared? = none := by
  simp only [Option.eq_none_iff_forall_ne_some, Prod.forall]
  constructor
  · exact fun h p init hp => h _ _ (declared?_assigned hp)
  · intro h p init hp
    obtain ⟨q, e, hq, -⟩ := of_declared?_assigned hp
    exact h q e hq

/-- An assignment to a name is one of the same name once calls of setters are
    rewritten. -/
theorem assignment?_assigned {e value : Node} (h : e.assignment? = some (x, value)) :
    (e.assigned setters).assignment? = some (x, value.assigned setters) := by
  unfold assignment? at h
  split at h
  · next op sp n sp' ps value =>
    cases h
    rw [assigned_of_kind (by simp)]
    simp only [kind_mk, span_mk, parts_mk, List.map_cons, List.map_nil]
    rw [assigned_of_kind (n := mk (.target _) _ _) (by simp)]
    rfl
  · cases h

/-- An assignment that comes of rewriting calls of setters was one before, or it is the
    call of a setter. -/
theorem of_assignment?_assigned {e value : Node}
    (h : (e.assigned setters).assignment? = some (x, value)) :
    (∃ v, e.assignment? = some (x, v)) ∨ ∃ p ∈ setters, x = p.2 := by
  cases hsets : e.sets? setters with
  | some v =>
    obtain ⟨y, -, hy⟩ := mem_of_sets hsets
    obtain ⟨w, s, hw, -⟩ := setterCall_cases v (e.arguments.map (assigned setters))
    rw [assigned_of_sets hsets, hw] at h
    cases h
    exact .inr ⟨_, hy, rfl⟩
  | none =>
    rw [assigned_of_not_sets hsets] at h
    unfold assignment? at h
    split at h
    · next op sp n sp' ps v heq =>
      cases h
      cases e with
      | mk k s qs =>
        rw [kind_mk, span_mk, parts_mk] at heq
        injection heq with hk hs hqs
        obtain ⟨t, ts, rfl, ht, hts⟩ := List.map_eq_cons_iff.1 hqs
        obtain ⟨v', rfl, -⟩ := List.map_eq_singleton_iff.1 hts
        obtain ⟨rs, rfl, -⟩ := eq_of_assigned_eq_mk ht (by simp) (by simp)
        obtain rfl : k = .assign op := hk
        exact .inl ⟨v', rfl⟩
    · cases h

/-- What a statement gives is given once calls of setters are rewritten; beyond that
    only the value of a setter can be. -/
theorem gives_assigned :
    (x ∈ s.gives → x ∈ (s.assigned setters).gives) ∧
      (x ∈ (s.assigned setters).gives → x ∈ s.gives ∨ ∃ p ∈ setters, x = p.2) := by
  cases hp : s.declared? with
  | some d =>
    obtain ⟨p, init⟩ := d
    have hnames : (s.assigned setters).gives = s.gives := by
      rw [gives, gives, hp, declared?_assigned hp]
      exact names_kept keepsScopes_assigned p
    rw [hnames]
    exact ⟨id, .inl⟩
  | none =>
    rw [gives, gives, hp, declared?_eq_none_of_assigned.2 hp]
    simp only [Option.mem_toList]
    refine ⟨fun h => ?_, fun h => ?_⟩
    · unfold assignedName? at h
      split at h
      · next sp e =>
        obtain ⟨⟨y, value⟩, he, rfl⟩ := Option.map_eq_some_iff.1 h
        rw [assigned_of_kind (by simp)]
        simp only [kind_mk, span_mk, parts_mk, List.map_cons, List.map_nil]
        rw [assignedName?, assignment?_assigned he]
        rfl
      · cases h
    · unfold assignedName? at h
      split at h
      · next sp e heq =>
        obtain ⟨qs, rfl, hqs⟩ := eq_of_assigned_eq_mk heq (by simp) (by simp)
        obtain ⟨e', rfl, rfl⟩ := List.map_eq_singleton_iff.1 hqs
        obtain ⟨⟨y, value⟩, he, rfl⟩ := Option.map_eq_some_iff.1 h
        refine (of_assignment?_assigned he).imp_left fun ⟨v, hv⟩ => ?_
        rw [assignedName?, hv]
        rfl
      · cases h

/-! ### Calls that are replaced -/

theorem direct_unsetList {ns : List Node}
    (h : ∀ n ∈ ns, ∀ nested u, (n.unset setters nested u).2.direct = true →
      u.direct = true ∨ n.callsSetter setters = true) (nested : Bool) (u : SetterUse)
    (hdirect : (unsetList setters nested ns u).2.direct = true) :
    u.direct = true ∨ ns.any (callsSetter setters) = true := by
  induction ns generalizing u with
  | nil => exact .inl hdirect
  | cons n ns ih =>
    rw [List.any_cons, Bool.or_eq_true]
    rcases ih (fun m hm => h m (List.mem_cons_of_mem _ hm)) (n.unset setters nested u).2 hdirect
      with hdirect | hcalls
    · exact (h n List.mem_cons_self nested u hdirect).imp_right .inl
    · exact .inr (.inr hcalls)

/-- Where a call has been replaced there was a call of a setter. -/
theorem callsSetter_of_direct (n : Node) (nested : Bool) (u : SetterUse)
    (hdirect : (n.unset setters nested u).2.direct = true) :
    u.direct = true ∨ n.callsSetter setters = true := by
  induction n generalizing nested u with
  | mk k s ps ih =>
    have hparts := direct_unsetList ih
    rw [callsSetter_mk, Bool.or_eq_true]
    unfold unset at hdirect
    dsimp only at hdirect
    split at hdirect
    · next o pure callee types arguments =>
      split at hdirect
      · next v hv =>
        refine .inr (.inl ?_)
        rw [sets?, hv]
        rfl
      · exact (hparts nested u hdirect).imp_right .inr
    · split at hdirect
      · next x hx =>
        refine (hparts _ _ hdirect).imp (fun h => ?_) .inr
        split at h <;> exact h
      · exact (hparts _ u hdirect).imp_right .inr

end Node

namespace Component

variable {typescript bound : Bool} {c c' d c₀ : Component} {i : Nat} {s : Node} {first : List Nat}
  {is : List Nat} {n : Nat}

/-! ### Rounds end -/

/-- How many statements may still be made reactive. -/
def openCount (c : Component) : Nat := (List.range c.body.length).countP c.isOpen

/-- Fewer elements pass a test that one of those that pass another test fails. -/
theorem countP_succ_le {p q : Nat → Bool} (hpq : ∀ j, q j = true → p j = true)
    (hp : p i = true) (hq : q i = false) (hi : i ∈ is) : is.countP q + 1 ≤ is.countP p := by
  obtain ⟨as, bs, rfl⟩ := List.append_of_mem hi
  have hle (is : List Nat) : is.countP q ≤ is.countP p := List.countP_mono_left fun k _ => hpq k
  have has := hle as
  have hbs := hle bs
  rw [List.countP_append, List.countP_append, List.countP_cons_of_pos hp,
    List.countP_cons_of_neg (by simp [hq])]
  omega

/-- A statement that is made reactive is no longer open, and no other is opened. -/
theorem settle_openCount (h : c.settle typescript i = .ok (c', bound)) :
    c'.openCount + bound.toNat ≤ c.openCount := by
  have hstate := settle_sameState h
  rcases settle_eq_ok h with ⟨rfl, rfl, -⟩ | ⟨s, hs, hopen, hcases⟩
  · exact Nat.le_refl _
  · have hsettled : c'.settled = c.settled ++ [i] := by
      rcases hcases with ⟨-, -, rfl⟩ | ⟨-, -, -, -, rfl⟩ <;> rfl
    have hj (j : Nat) := isOpen_append (j := j) hsettled hstate.exempt
    have hi := List.mem_range.2 (List.getElem?_eq_some_iff.1 hs).1
    have hlt : c'.openCount + 1 ≤ c.openCount := by
      rw [openCount, openCount, hstate.length]
      refine countP_succ_le (fun j => ?_) hopen (by simp [hj]) hi
      rw [hj, Bool.and_eq_true]
      exact And.left
    have hbound := Bool.toNat_le bound
    omega

theorem round_openCount (h : c.round typescript is = .ok (c', n)) :
    c'.openCount + n ≤ c.openCount := by
  have hle := round_counts (k := 0) (P := fun d k => d.openCount + k ≤ c.openCount)
    (fun _ hd hle => by have := settle_openCount hd; omega) h (Nat.le_refl _)
  rwa [Nat.zero_add] at hle

/-- A statement that is looked at and not made reactive is no longer due. -/
theorem settle_unbound (h : c.settle typescript i = .ok (c', false)) :
    (c'.body = c.body ∧ c'.tracked = c.tracked ∧ ∀ j, c'.isOpen j = true → c.isOpen j = true) ∧
      c'.isDue i = false := by
  rcases settle_eq_ok h with ⟨rfl, -, hclosed⟩ | ⟨s, -, -, ⟨-, -, rfl⟩ | ⟨r, names, -, hbound, -⟩⟩
  · refine ⟨⟨rfl, rfl, fun _ => id⟩, ?_⟩
    cases hs : c'.body[i]? with
    | none => simp [isDue, hs]
    | some s => simp [isDue, hclosed s hs]
  · have hopen (j : Nat) := isOpen_append (c := c) (i := i) (j := j)
      (e := { c with settled := c.settled ++ [i] }) rfl rfl
    refine ⟨⟨rfl, rfl, fun j hj => ?_⟩, ?_⟩
    · rw [hopen, Bool.and_eq_true] at hj
      exact hj.1
    · simp [isDue, hopen]
  · cases hbound

/-- A round that labels nothing leaves nothing to label among the statements it has been
    over. -/
theorem round_done (h : c.round typescript is = .ok (c', 0)) :
    (c'.body = c.body ∧ c'.tracked = c.tracked ∧ ∀ j, c'.isOpen j = true → c.isOpen j = true) ∧
      ∀ i ∈ is, c'.isDue i = false := by
  induction is generalizing c with
  | nil =>
    cases h
    exact ⟨⟨rfl, rfl, fun _ => id⟩, nofun⟩
  | cons i is ih =>
    have hstays {d : Component} (hd : d.isDue i = false)
        (h : c'.body = d.body ∧ c'.tracked = d.tracked ∧ ∀ j, c'.isOpen j = true → d.isOpen j = true) :
        c'.isDue i = false := by
      obtain ⟨hbody, htracked, hopen⟩ := h
      refine Bool.eq_false_iff.2 fun hdue => Bool.eq_false_iff.1 hd ?_
      simp only [isDue, returnIndex, hbody, htracked, Bool.and_eq_true] at hdue ⊢
      exact ⟨⟨hopen i hdue.1.1, hdue.1.2⟩, hdue.2⟩
    rw [round] at h
    split at h
    · obtain ⟨⟨d, bound⟩, hd, h⟩ := of_bind_eq_ok h
      obtain ⟨⟨e, m⟩, he, h⟩ := of_bind_eq_ok h
      obtain ⟨rfl, hzero⟩ : e = c' ∧ m + bound.toNat = 0 := by
        injection h with h
        injection h with he hm
        exact ⟨he, hm⟩
      obtain ⟨rfl, hbound⟩ : m = 0 ∧ bound = false := by
        cases bound
        · exact ⟨hzero, rfl⟩
        · cases hzero
      obtain ⟨hsame, hdone⟩ := ih he
      obtain ⟨hd, hopen⟩ := settle_unbound (hbound ▸ hd)
      exact ⟨⟨hsame.1.trans hd.1, hsame.2.1.trans hd.2.1, fun j hj => hd.2.2 j (hsame.2.2 j hj)⟩,
        List.forall_mem_cons.2 ⟨hstays hopen hsame, hdone⟩⟩
    · next hdue =>
      obtain ⟨hsame, hdone⟩ := ih h
      refine ⟨hsame, List.forall_mem_cons.2 ⟨hstays (Bool.eq_false_iff.2 hdue) hsame, hdone⟩⟩

theorem rounds_done {fuel n : Nat} (h : c.rounds typescript fuel = .ok (c', n))
    (hfuel : c.openCount < fuel) : ∀ i, c'.isDue i = false := by
  induction fuel generalizing c n with
  | zero => exact absurd hfuel (Nat.not_lt_zero _)
  | succ fuel ih =>
    obtain ⟨⟨d, k⟩, hd, h⟩ := of_bind_eq_ok h
    dsimp only at h
    split at h
    · next hk =>
      cases h
      subst hk
      obtain ⟨⟨hbody, -⟩, hdone⟩ := round_done hd
      intro i
      by_cases hi : i < c.body.length
      · exact hdone i (List.mem_range.2 hi)
      · have hnone : c'.body[i]? = none := by
          rw [hbody]
          exact List.getElem?_eq_none (Nat.le_of_not_lt hi)
        simp [isDue, hnone]
    · obtain ⟨⟨e, m⟩, he, h⟩ := of_bind_eq_ok h
      cases h
      have hcount := round_openCount hd
      exact ih he (by omega)

/-- In the end no statement is left that reads a followed name and may be made
    reactive. -/
theorem propagate_done (h : c.propagate typescript = .ok (c', n)) (i : Nat) :
    c'.isDue i = false := by
  refine rounds_done h ?_ i
  have hle : c.openCount ≤ c.body.length := by
    have := List.countP_le_length (p := c.isOpen) (l := List.range c.body.length)
    rwa [List.length_range] at this
  omega

/-! ### What is labelled and what is followed -/

/-- What labelling statements of `c₀` makes of it. A statement is labelled because it is
    one of `first`, or because it reads a followed name; the names that it gives values
    to are followed. -/
structure Spread (typescript : Bool) (first : List Nat) (c₀ c : Component) : Prop where
  sameState : SameState c₀ c
  settled : c₀.settled ⊆ c.settled
  tracked : c₀.tracked ⊆ c.tracked
  rest : ∀ i, (i ∈ c.settled → i ∈ c₀.settled) → c.body[i]? = c₀.body[i]?
  labelled : ∀ i ∈ c.settled, i ∉ c₀.settled → c₀.isOpen i = true ∧ ∃ s, c₀.body[i]? = some s ∧
    (i ∈ first ∨ s.reads c.tracked = true) ∧
    (reactiveForm typescript s = .ok none ∧ c.body[i]? = some s ∨
      ∃ r names, reactiveForm typescript s = .ok (some (r, names)) ∧ c.body[i]? = some r ∧
        names ⊆ c.tracked)
  given : ∀ x ∈ c.tracked, x ∈ c₀.tracked ∨ ∃ i ∈ c.settled, i ∉ c₀.settled ∧
    ∃ s r names, c₀.body[i]? = some s ∧ reactiveForm typescript s = .ok (some (r, names)) ∧
      x ∈ names

theorem Spread.refl (first : List Nat) (c : Component) : Spread typescript first c c :=
  ⟨.refl c, fun _ => id, fun _ => id, fun _ _ => rfl, fun _ hi hi' => absurd hi hi',
    fun _ hx => .inl hx⟩

/-- Labelling one more statement. -/
theorem Spread.settle
    (hc : Spread typescript first c₀ c) (h : c.settle typescript i = .ok (c', bound))
    (hi : i ∈ first ∨ c.isDue i = true) : Spread typescript first c₀ c' := by
  rcases settle_eq_ok h with ⟨rfl, -, -⟩ | ⟨s, hs, hopen, hcases⟩
  · exact hc
  · have hnew := not_mem_settled hopen
    have hs₀ : c₀.body[i]? = some s := (hc.rest i fun hi => absurd hi hnew).symm.trans hs
    have hopen₀ : c₀.isOpen i = true := by
      have hi₀ : i ∉ c₀.settled := fun hi => hnew (hc.settled hi)
      rw [isOpen, hc.sameState.exempt] at hopen
      rw [isOpen]
      simp_all
    have hreason : i ∈ first ∨ s.reads c.tracked = true := by
      refine hi.imp_right fun hdue => ?_
      rw [isDue, hs, Bool.and_eq_true] at hdue
      exact hdue.2
    have hstate := hc.sameState.trans (settle_sameState h)
    obtain ⟨hsettled, hgrows, hbody, hform⟩ : c'.settled = c.settled ++ [i] ∧
        c.tracked ⊆ c'.tracked ∧ (∀ j, j ≠ i → c'.body[j]? = c.body[j]?) ∧
        (reactiveForm typescript s = .ok none ∧ c'.body[i]? = some s ∧ c'.tracked = c.tracked ∨
        ∃ r names, reactiveForm typescript s = .ok (some (r, names)) ∧ c'.body[i]? = some r ∧
          ∀ x, x ∈ c'.tracked ↔ x ∈ c.tracked ∨ x ∈ names) := by
      rcases hcases with ⟨hnone, -, rfl⟩ | ⟨r, names, hr, -, rfl⟩
      · exact ⟨rfl, fun _ => id, fun _ _ => rfl, .inl ⟨hnone, hs, rfl⟩⟩
      · exact ⟨rfl, fun x hx => mem_track.2 (.inl hx), fun j hj => List.getElem?_set_ne hj.symm,
          .inr ⟨r, names, hr, List.getElem?_set_self (List.getElem?_eq_some_iff.1 hs).1,
            fun x => mem_track⟩⟩
    have hmem (j : Nat) : j ∈ c'.settled ↔ j ∈ c.settled ∨ j = i := by simp [hsettled]
    refine ⟨hstate, fun j hj => (hmem j).2 (.inl (hc.settled hj)),
      fun x hx => hgrows (hc.tracked hx), fun j hj => ?_, fun j hj hj₀ => ?_, fun x hx => ?_⟩
    · have hij : j ≠ i := fun hij => hnew (hc.settled (hij ▸ hj ((hmem j).2 (.inr hij))))
      exact (hbody j hij).trans (hc.rest j fun hj' => hj ((hmem j).2 (.inl hj')))
    · by_cases hij : j = i
      · subst hij
        refine ⟨hopen₀, s, hs₀, hreason.imp_right (Node.reads_mono hgrows s), ?_⟩
        rcases hform with ⟨hnone, hs', -⟩ | ⟨r, names, hr, hr', htracked⟩
        · exact .inl ⟨hnone, hs'⟩
        · exact .inr ⟨r, names, hr, hr', fun x hx => (htracked x).2 (.inr hx)⟩
      · obtain ⟨hopen', t, ht, hreason', hform'⟩ :=
          hc.labelled j (((hmem j).1 hj).resolve_right hij) hj₀
        refine ⟨hopen', t, ht, hreason'.imp_right (Node.reads_mono hgrows t), ?_⟩
        rw [hbody j hij]
        rcases hform' with hkept | ⟨r, names, hr, hr', hnames⟩
        · exact .inl hkept
        · exact .inr ⟨r, names, hr, hr', fun x hx => hgrows (hnames hx)⟩
    · have hold (hx : x ∈ c.tracked) := (hc.given x hx).imp_right
        (Exists.imp fun j => And.imp_left fun hj => (hmem j).2 (.inl hj))
      rcases hform with ⟨-, -, htracked⟩ | ⟨r, names, hr, -, htracked⟩
      · exact hold (htracked ▸ hx)
      · rcases (htracked x).1 hx with hx | hx
        · exact hold hx
        · exact .inr ⟨i, (hmem i).2 (.inr rfl), fun hi₀ => hnew (hc.settled hi₀), s, r, names, hs₀,
            hr, hx⟩

theorem Spread.propagate
    (hc : Spread typescript first c₀ c) (h : c.propagate typescript = .ok (c', n)) :
    Spread typescript first c₀ c' :=
  propagate_keeps_due (P := Spread typescript first c₀)
    (fun hdue h hc => hc.settle h (.inr hdue)) h hc

theorem Spread.settleAll {first is : List Nat} (his : is ⊆ first)
    (hc : Spread typescript first c₀ c) (h : c.settleAll typescript is = .ok c') :
    Spread typescript first c₀ c' := by
  induction is generalizing c with
  | nil =>
    cases h
    exact hc
  | cons i is ih =>
    obtain ⟨⟨d, bound⟩, hd, h⟩ := of_bind_eq_ok h
    exact ih (fun j hj => his (List.mem_cons_of_mem _ hj))
      (hc.settle hd (.inl (his List.mem_cons_self))) h

/-- Once nothing is due, an open statement is settled if it reads a followed name. -/
theorem Spread.settled_of_reads (hc : Spread typescript first c₀ c) (hdone : ∀ i, c.isDue i = false)
    (hs : c₀.body[i]? = some s) (hopen : c₀.isOpen i = true) (hi : i ≠ c₀.returnIndex)
    (hreads : s.reads c.tracked = true) : i ∈ c.settled := by
  refine Decidable.byContradiction fun hsettled => Bool.eq_false_iff.1 (hdone i) ?_
  have hbody : c.body[i]? = some s := (hc.rest i fun h => absurd h hsettled).trans hs
  have hreturn : c.returnIndex = c₀.returnIndex := by
    rw [returnIndex, hc.sameState.length, returnIndex]
  have hopen' : c.isOpen i = true := by
    rw [isOpen] at hopen
    rw [isOpen, hc.sameState.exempt]
    simp_all
  rw [isDue, hbody, hopen', hreturn]
  simp [hi, hreads]

theorem unsetBody_direct {setters : List (Text × Text)} {ss : List Node} {i j : Nat}
    {escaped : List Text} (hj : j ∈ (unsetBody setters i ss escaped).2.1) :
    ∃ k s, j = i + k ∧ ss[k]? = some s ∧ s.callsSetter setters = true := by
  induction ss generalizing i escaped with
  | nil => cases hj
  | cons s ss ih =>
    rw [unsetBody] at hj
    dsimp only at hj
    have htail (h : j ∈ (unsetBody setters (i + 1) ss
        (s.unset setters false { escaped }).2.escaped).2.1) :
        ∃ k t, j = i + k ∧ (s :: ss)[k]? = some t ∧ t.callsSetter setters = true := by
      obtain ⟨k, t, rfl, ht, hcalls⟩ := ih h
      exact ⟨k + 1, t, by omega, ht, hcalls⟩
    split at hj
    · next hdirect =>
      rcases List.mem_cons.1 hj with rfl | hj
      · refine ⟨0, s, rfl, rfl, ?_⟩
        exact (Node.callsSetter_of_direct s false { escaped } hdirect).resolve_left
          Bool.false_ne_true
      · exact htail hj
    · exact htail hj

/-- What is labelled when state is extracted, beginning with the statements that have
    their state declared by variables and their calls of setters rewritten. -/
theorem extractState_spread (h : c.extractState typescript = .ok c')
    (hd : c.extractCells typescript (List.range c.body.length) = .ok d) :
    ∃ first, Spread typescript first
        { d with
          body := d.body.map (Node.assigned d.setters)
          synthesized := c'.synthesized } c' ∧
      (∀ i, c'.isDue i = false) ∧
      ∀ i ∈ first, ∀ s, d.body[i]? = some s → s.callsSetter d.setters = true := by
  obtain ⟨d', e, n, hd', -, he, hc'⟩ := extractState_eq_ok h
  cases hd.symm.trans hd'
  obtain ⟨first, ss, hfirst, he⟩ := unsetCalls_eq_ok he
  refine ⟨first, ?_, propagate_done hc', fun i hi s hs => ?_⟩
  · rw [(propagate_sameState hc').synthesized, (settleAll_sameState he).synthesized]
    exact ((Spread.refl _ _).settleAll (fun _ => id) he).propagate hc'
  · obtain ⟨k, t, rfl, ht, hcalls⟩ := unsetBody_direct (hfirst hi)
    rw [Nat.zero_add] at hs
    cases ht.symm.trans hs
    exact hcalls

/-- A statement that is settled once props are bound has only its calls of setters
    rewritten when state is extracted. -/
theorem extractState_of_settled (hd : c.extractState typescript = .ok d)
    (hs : c.body[i]? = some s) (hsettled : i ∈ c.settled)
    (hstate : ∀ sd, StateDeclaration.ofStatement? s ≠ .ok (some sd)) :
    d.body[i]? = some (s.assigned d.setters) := by
  rcases extractState_body hd hs with ⟨sd, t, hsd, -⟩ | ⟨-, hbody | ⟨hopen, -⟩⟩
  · exact absurd hsd (hstate sd)
  · exact hbody
  · simp [isOpen, hsettled] at hopen

theorem not_state_of_labelled (h : s.kind = .labeled reactiveLabel)
    (sd : StateDeclaration) : StateDeclaration.ofStatement? s ≠ .ok (some sd) := by
  intro hsd
  obtain ⟨k, d, hk⟩ := StateDeclaration.ofStatement?_kind hsd
  rw [hk] at h
  cases h

/-- The names that are followed after state is extracted. -/
theorem extractState_tracked (hc : c.setters = []) (h : c.extractState typescript = .ok d) :
    c.tracked ⊆ d.tracked ∧ ∀ p ∈ d.setters, p.2 ∈ d.tracked := by
  obtain ⟨e, -, -, he, -⟩ := extractState_eq_ok h
  obtain ⟨first, hspread, -⟩ := extractState_spread h he
  have hcells (x : Text) := extractCells_tracked he (by simp [hc]) (x := x)
  refine ⟨fun x hx => hspread.tracked ((hcells x).2 (.inl hx)), fun p hp => ?_⟩
  rw [(extractState_setters h he).1] at hp
  exact hspread.tracked ((hcells p.2).2 (.inr ⟨p, hp, rfl⟩))

/-- An open statement that declares no state is, once state is declared, still there and
    still open. -/
theorem extractCells_open (he : c.extractCells typescript (List.range c.body.length) = .ok d)
    (hs : c.body[i]? = some s) (hopen : c.isOpen i = true)
    (hstate : ∀ sd, StateDeclaration.ofStatement? s ≠ .ok (some sd)) :
    d.body[i]? = some s ∧ d.isOpen i = true := by
  have hi : i ∈ List.range c.body.length := List.mem_range.2 (List.getElem?_eq_some_iff.1 hs).1
  rcases extractCells_body List.nodup_range he hi hs with ⟨-, hbody, hexempt⟩ | ⟨sd, t, hsd, -⟩
  · refine ⟨hbody, ?_⟩
    have hsettled := (extractCells_extractsFrom he).settled
    simp only [isOpen, Bool.and_eq_true, Bool.not_eq_true', List.contains_eq_mem,
      decide_eq_false_iff_not, hsettled] at hopen ⊢
    exact ⟨hopen.1, fun h => hopen.2 (hexempt h)⟩
  · exact absurd hsd (hstate sd)

/-- What extracting state makes of an open statement that is neither the return nor
    declares state. -/
theorem extractState_of_open (hd : c.extractState typescript = .ok d)
    (hs : c.body[i]? = some s) (hopen : c.isOpen i = true) (hi : i ≠ c.returnIndex)
    (hstate : ∀ sd, StateDeclaration.ofStatement? s ≠ .ok (some sd)) :
    ∃ t, d.body[i]? = some t ∧
      (t.kind = .labeled reactiveLabel ∧ s.isReactable = true ∧
        ((s.assigned d.setters).reads d.tracked = true ∨ s.callsSetter d.setters = true) ∧
        s.gives ⊆ d.tracked ∨
      t = s.assigned d.setters ∧
        (s.isReactable = true → (s.assigned d.setters).reads d.tracked = false)) := by
  obtain ⟨e, -, -, he, -⟩ := extractState_eq_ok hd
  obtain ⟨hsetters, -⟩ := extractState_setters hd he
  obtain ⟨first, hspread, hdone, hfirst⟩ := extractState_spread hd he
  obtain ⟨hbody, hopen'⟩ := extractCells_open he hs hopen hstate
  rw [hsetters]
  have hs₀ : (e.body.map (Node.assigned e.setters))[i]? = some (s.assigned e.setters) := by
    rw [List.getElem?_map, hbody]
    rfl
  have hnew := not_mem_settled hopen'
  by_cases hmem : i ∈ d.settled
  · obtain ⟨-, s', hs', hreason, hform⟩ := hspread.labelled i hmem hnew
    cases hs₀.symm.trans hs'
    rcases hform with ⟨hnone, hbody'⟩ | ⟨r, names, hr, hbody', hnames⟩
    · refine ⟨_, hbody', .inr ⟨rfl, fun hreactable => ?_⟩⟩
      rw [← Node.isReactable_assigned, Node.of_reactiveForm_eq_none hnone] at hreactable
      cases hreactable
    · obtain ⟨hreactable, hkind, rfl⟩ := Node.of_reactiveForm_eq_some hr
      rw [Node.isReactable_assigned] at hreactable
      refine ⟨r, hbody', .inl ⟨hkind, hreactable, ?_, fun x hx =>
        hnames (Node.gives_assigned.1 hx)⟩⟩
      exact hreason.symm.imp_right fun h => hfirst i h s hbody
  · refine ⟨_, (hspread.rest i fun h => absurd h hmem).trans hs₀, .inr ⟨rfl, fun _ => ?_⟩⟩
    refine Bool.eq_false_iff.2 fun hreads =>
      hmem (hspread.settled_of_reads hdone hs₀ hopen' ?_ hreads)
    rw [returnIndex, List.length_map, (extractCells_extractsFrom he).length]
    exact hi

section

variable {length n : Nat} {module aliases : List Node} {c₁ b : Component}

/-- What becomes of a statement that is neither the return nor declares state: it is
    labelled, or it is kept and there was no reason to label it. -/
theorem labelled_or_kept (hc : ofModule length module = .ok c) (h₁ : Aliased typescript aliases c c₁)
    (hb : c₁.propagate typescript = .ok (b, n)) (hd : b.extractState typescript = .ok d)
    {i : Nat} {s : Node} (hs : c.body[i]? = some s) (hi : i ≠ c.returnIndex)
    (hstate : ∀ sd, StateDeclaration.ofStatement? (c.renamed s) ≠ .ok (some sd)) :
    ∃ t, d.body[aliases.length + i]? = some t ∧
      (t.kind = .labeled reactiveLabel ∧ (c.renamed s).isReactable = true ∧
        ((c.renamed s).reads b.tracked = true ∨
          ((c.renamed s).assigned d.setters).reads d.tracked = true ∨
          (c.renamed s).callsSetter d.setters = true) ∧ (c.renamed s).gives ⊆ d.tracked ∨
      t = (c.renamed s).assigned d.setters ∧ ((c.renamed s).isReactable = true →
        (c.renamed s).reads b.tracked = false ∧
          ((c.renamed s).assigned d.setters).reads d.tracked = false)) := by
  obtain ⟨⟨hsettled, hexempt, -⟩, hsetters, -⟩ := ofModule_fresh hc
  have hbound := h₁.bound hb
  have hilt := (List.getElem?_eq_some_iff.1 hs).1
  have hs₁ : c₁.body[aliases.length + i]? = some (c.renamed s) := by
    rw [h₁.body, List.getElem?_append_right (Nat.le_add_right _ _), Nat.add_sub_cancel_left,
      List.getElem?_map, hs]
    rfl
  have hnew : aliases.length + i ∉ c₁.settled := by
    rcases h₁.settled with ⟨-, h⟩ | h <;> rw [h]
    · simp [hsettled]
    · simp
  have hopen : c₁.isOpen (aliases.length + i) = true := by
    simp [isOpen, hnew, h₁.exempt, hexempt]
  have hreturn : aliases.length + i ≠ c₁.returnIndex := by
    rw [returnIndex] at hi
    rw [returnIndex, h₁.body, List.length_append, List.length_map]
    omega
  have hspread := (Spread.refl [] c₁).propagate hb
  have hgrows := (extractState_tracked (hbound.setters.trans hsetters) hd).1
  by_cases hmem : aliases.length + i ∈ b.settled
  · -- It is labelled when props are bound, or it never will be.
    obtain ⟨-, s', hs', hreads, hform⟩ := hspread.labelled _ hmem hnew
    cases hs₁.symm.trans hs'
    have hreads := hreads.resolve_left List.not_mem_nil
    rcases hform with ⟨hnone, hbody⟩ | ⟨r, names, hr, hbody, hnames⟩
    · refine ⟨_, extractState_of_settled hd hbody hmem hstate, .inr ⟨rfl, fun hreactable => ?_⟩⟩
      rw [Node.of_reactiveForm_eq_none hnone] at hreactable
      cases hreactable
    · obtain ⟨hreactable, hkind, rfl⟩ := Node.of_reactiveForm_eq_some hr
      refine ⟨_, extractState_of_settled hd hbody hmem (not_state_of_labelled hkind),
        .inl ⟨?_, hreactable, .inl hreads, fun x hx => hgrows (hnames hx)⟩⟩
      rw [Node.kind_assigned_of_ne (by simp [hkind]), hkind]
  · have hbody : b.body[aliases.length + i]? = some (c.renamed s) :=
      (hspread.rest _ fun h => absurd h hmem).trans hs₁
    have hunread : (c.renamed s).reads b.tracked = false :=
      Bool.eq_false_iff.2 fun hreads =>
        hmem (hspread.settled_of_reads (propagate_done hb) hs₁ hopen hreturn hreads)
    have hopen' : b.isOpen (aliases.length + i) = true := by
      simp [isOpen, hmem, hbound.exempt, hexempt]
    have hreturn' : aliases.length + i ≠ b.returnIndex := by
      rwa [returnIndex, hspread.sameState.length]
    obtain ⟨t, ht, hcases⟩ := extractState_of_open hd hbody hopen' hreturn' hstate
    rcases hcases with ⟨hkind, hreactable, hreason, hgives⟩ | ⟨heq, hreads⟩
    · exact ⟨t, ht, .inl ⟨hkind, hreactable, .inr hreason, hgives⟩⟩
    · exact ⟨t, ht, .inr ⟨heq, fun hreactable => ⟨hunread, hreads hreactable⟩⟩⟩

/-- A statement that is not settled with the aliases is one of the source. -/
theorem Aliased.source (h₁ : Aliased typescript aliases c c₁) {j : Nat} {t : Node}
    (hj : j ∉ c₁.settled) (ht : c₁.body[j]? = some t) :
    ∃ i s, j = aliases.length + i ∧ c.body[i]? = some s ∧ t = c.renamed s := by
  have hle : aliases.length ≤ j := by
    rcases h₁.settled with ⟨rfl, -⟩ | h
    · exact Nat.zero_le j
    · rw [h] at hj
      exact Nat.le_of_not_lt fun hlt => hj (List.mem_range.2 hlt)
  obtain ⟨i, rfl⟩ := Nat.exists_eq_add_of_le hle
  rw [h₁.body, List.getElem?_append_right (Nat.le_add_right _ _), Nat.add_sub_cancel_left,
    List.getElem?_map] at ht
  obtain ⟨s, hs, rfl⟩ := Option.map_eq_some_iff.1 ht
  exact ⟨i, s, rfl, hs, rfl⟩

/-- A name that a labelled statement of the source gives a value to. -/
def Given (aliases : List Node) (c d : Component) (x : Text) : Prop :=
  ∃ (i : Nat) (s t : Node), c.body[i]? = some s ∧ d.body[aliases.length + i]? = some t ∧
    t.kind = .labeled reactiveLabel ∧ (c.renamed s).isReactable = true ∧ x ∈ (c.renamed s).gives

/-- Once props are bound, the names that are followed are those of the props and those
    that labelled statements give values to. -/
theorem given_of_propagate (hc : ofModule length module = .ok c)
    (h₁ : Aliased typescript aliases c c₁) (hb : c₁.propagate typescript = .ok (b, n))
    (hd : b.extractState typescript = .ok d) {x : Text} (hx : x ∈ b.tracked) :
    x ∈ c.propNames ∨ Given aliases c d x := by
  obtain ⟨⟨-, -, htracked⟩, -⟩ := ofModule_fresh hc
  have hspread := (Spread.refl [] c₁).propagate hb
  rcases hspread.given x hx with hx | ⟨j, hj, hj₁, s₁, r, names, hs₁, hr, hx⟩
  · rw [h₁.tracked, htracked] at hx
    exact .inl (hx.resolve_left List.not_mem_nil)
  · obtain ⟨i, s, rfl, hs, rfl⟩ := h₁.source hj₁ hs₁
    obtain ⟨hreactable, hkind, rfl⟩ := Node.of_reactiveForm_eq_some hr
    obtain ⟨-, s', hs', -, hform⟩ := hspread.labelled _ hj hj₁
    cases hs₁.symm.trans hs'
    rcases hform with ⟨hnone, -⟩ | ⟨r', names', hr', hbody, -⟩
    · rw [hnone] at hr
      cases hr
    · cases hr.symm.trans hr'
      refine .inr ⟨i, s, _, hs, extractState_of_settled hd hbody hj (not_state_of_labelled hkind), ?_,
        hreactable, hx⟩
      rw [Node.kind_assigned_of_ne (by simp [hkind]), hkind]

/-- Once state is extracted, the names that are followed are those of the props and of
    the state, and those that labelled statements give values to. -/
theorem given_of_extractState (hc : ofModule length module = .ok c)
    (h₁ : Aliased typescript aliases c c₁) (hb : c₁.propagate typescript = .ok (b, n))
    (hd : b.extractState typescript = .ok d) {x : Text} (hx : x ∈ d.tracked) :
    x ∈ c.propNames ∨ (∃ p ∈ d.setters, x = p.2) ∨ Given aliases c d x := by
  obtain ⟨-, hempty, -⟩ := ofModule_fresh hc
  obtain ⟨e, -, -, he, -⟩ := extractState_eq_ok hd
  obtain ⟨hsetters, -⟩ := extractState_setters hd he
  obtain ⟨first, hspread, -⟩ := extractState_spread hd he
  have hcells := extractCells_extractsFrom he
  have hspread₁ := (Spread.refl [] c₁).propagate hb
  rcases hspread.given x hx with hx | ⟨j, hj, hj₁, s₁, r, names, hs₁, hr, hx⟩
  · have hb' : ∀ p ∈ b.setters, p.2 ∈ b.tracked := by
      simp [(h₁.bound hb).setters, hempty]
    rcases (extractCells_tracked he hb').1 hx with hx | hx
    · exact (given_of_propagate hc h₁ hb hd hx).imp_right .inr
    · exact .inr (.inl (hsetters ▸ hx))
  · -- The statement was open, so it is one of the source that declares no state.
    obtain ⟨hopen, s', hs', -, hform⟩ := hspread.labelled j hj hj₁
    cases hs₁.symm.trans hs'
    obtain ⟨u, hu, rfl⟩ : ∃ u, e.body[j]? = some u ∧ u.assigned e.setters = s₁ :=
      Option.map_eq_some_iff.1 ((List.getElem?_map).symm.trans hs₁)
    have hjb : j ∉ b.settled := fun h => hj₁ (hcells.settled ▸ h)
    have hlt : j < b.body.length := by
      rw [← hcells.length]
      exact (List.getElem?_eq_some_iff.1 hu).1
    rcases extractCells_body List.nodup_range he (List.mem_range.2 hlt)
      (List.getElem?_eq_getElem hlt) with ⟨-, hsame, -⟩ | ⟨sd, t, -, -, -, hexempt, -⟩
    · have hu₁ : c₁.body[j]? = some u := by
        rw [← hspread₁.rest j fun h => absurd h hjb, ← hu, hsame, List.getElem?_eq_getElem hlt]
      obtain ⟨i, s, rfl, hs, rfl⟩ := h₁.source (fun h => hjb (hspread₁.settled h)) hu₁
      obtain ⟨hreactable, hkind, rfl⟩ := Node.of_reactiveForm_eq_some hr
      rw [Node.isReactable_assigned] at hreactable
      rcases hform with ⟨hnone, -⟩ | ⟨r', names', hr', hbody, -⟩
      · rw [hnone] at hr
        cases hr
      · cases hr.symm.trans hr'
        rcases Node.gives_assigned.2 hx with hx | hx
        · exact .inr (.inr ⟨i, s, r, hs, hbody, hkind, hreactable, hx⟩)
        · exact .inr (.inl (hsetters ▸ hx))
    · rw [isOpen] at hopen
      simp [hexempt] at hopen

/-- Statements react to what they read. A statement, other than the return and
    declarations of state, that can be made reactive and reads a followed name is labelled,
    exactly once, and the names that it gives values to are followed; if it is
    labelled it can be made reactive and reads a followed name or calls a setter. The
    names that are followed are those of the props, the values of the state, and those
    that labelled statements give values to. What a statement reads is told before
    calls of setters are rewritten, for what follows from the props, or after. -/
theorem labelled_of_reads (hc : ofModule length module = .ok c)
    (hb : c.bindProps typescript = .ok b) (hd : b.extractState typescript = .ok d)
    (hholes : ∀ s ∈ c.body, s.hasHole = false) (hread : c.isLegible typescript d.setters = true) :
    ∃ aliases : List Node, c.aliasTexts.map (Template.read typescript) = aliases.map .ok ∧
      (c.propNames ⊆ b.tracked ∧ b.tracked ⊆ d.tracked ∧ (∀ p ∈ d.setters, p.2 ∈ d.tracked) ∧
        ∀ x ∈ d.tracked, x ∈ c.propNames ∨ (∃ p ∈ d.setters, x = p.2) ∨ Given aliases c d x) ∧
      ∀ (i : Nat) s, c.body[i]? = some s → i ≠ c.returnIndex →
        (∀ sd, StateDeclaration.ofStatement? (c.renamed s) ≠ .ok (some sd)) →
        ∃ t, d.body[aliases.length + i]? = some t ∧
          ((c.renamed s).isReactable = true → (c.renamed s).reads b.tracked = true ∨
              ((c.renamed s).assigned d.setters).reads d.tracked = true →
            Fate.labelled.Relates d.setters (c.renamed s) t ∧ t.labels = 1 ∧
              (c.renamed s).gives ⊆ d.tracked) ∧
          (Fate.labelled.Relates d.setters (c.renamed s) t → (c.renamed s).isReactable = true ∧
            ((c.renamed s).reads b.tracked = true ∨
              ((c.renamed s).assigned d.setters).reads d.tracked = true ∨
              (c.renamed s).callsSetter d.setters = true)) := by
  obtain ⟨c₁, aliases, n, h₁, hb'⟩ := bindProps_eq_ok hb
  obtain ⟨⟨-, -, htracked⟩, hempty, -⟩ := ofModule_fresh hc
  have hbound := h₁.bound hb'
  have hspread := (Spread.refl [] c₁).propagate hb'
  obtain ⟨hgrows, hvalues⟩ := extractState_tracked (hbound.setters.trans hempty) hd
  refine ⟨aliases, h₁.texts, ⟨fun x hx => hspread.tracked ((h₁.tracked x).2 (.inr hx)), hgrows,
    hvalues, fun x hx => given_of_extractState hc h₁ hb' hd hx⟩, fun i s hs hi hstate => ?_⟩
  obtain ⟨t, ht, hcases⟩ := labelled_or_kept hc h₁ hb' hd hs hi hstate
  obtain ⟨t', f, ht', hf, hdeclared⟩ := exists_fate hc hb hd hholes hread hbound hs
  cases ht.symm.trans ht'
  refine ⟨t, ht, ?_⟩
  rcases hcases with ⟨hkind, hreactable, hreason, hgives⟩ | ⟨heq, hunread⟩
  · -- What is kept has no label, and what declares state is not looked at here.
    have hlabelled : f = .labelled := by
      cases f with
      | labelled => rfl
      | kept =>
        rw [show t = _ from hf] at hkind
        rcases Node.kind_assigned d.setters (c.renamed s) with h | ⟨-, h⟩
        · exact absurd (h.symm.trans hkind) (Node.kind_of_isReactable hreactable _)
        · rw [h] at hkind
          cases hkind
      | declared =>
        obtain ⟨sd, hsd⟩ := hdeclared.1 rfl
        exact absurd hsd (hstate sd)
    subst hlabelled
    exact ⟨fun _ _ => ⟨hf, (Fate.labels_of_labelled hf).2, hgives⟩, fun _ => ⟨hreactable, hreason⟩⟩
  · refine ⟨fun hreactable hreads => ?_, fun hlabelled => ?_⟩
    · obtain ⟨hb, hd⟩ := hunread hreactable
      rw [hb, hd] at hreads
      simp at hreads
    · obtain ⟨hnone, hone⟩ := Fate.labels_of_labelled hlabelled
      rw [heq, Node.labels_assigned, hnone] at hone
      cases hone

end

/-- A component in which a statement reads what is given a value further down, from a
    prop and a piece of state. -/
def chainSource : Text :=
  "export default (\x7b a \x7d) => \x7b
    const [n, setN] = useState(0);
    const y = z;
    const z = a + n;
    return <p/>;
  \x7d;"

theorem chain_labelled :
    ∃ length module c b d s t, ofModule length module = .ok c ∧ c.bindProps false = .ok b ∧
      b.extractState false = .ok d ∧ (∀ s ∈ c.body, s.hasHole = false) ∧
      c.isLegible false d.setters = true ∧ c.body[1]? = some s ∧
      ((c.renamed s).assigned d.setters).reads d.tracked = true ∧ d.body[0 + 1]? = some t ∧
      Fate.labelled.Relates d.setters (c.renamed s) t ∧ t.labels = 1 ∧
      ("y" : Text) ∈ d.tracked := by
  have hsource : ((parse {} chainSource).toOption.bind fun module =>
      (ofModule chainSource.byteLength module).toOption.bind fun c =>
      (c.bindProps false).toOption.bind fun b => (b.extractState false).toOption.bind fun d =>
      c.body[1]?.map fun s =>
        ((c.body.all fun s => !s.hasHole) && c.isLegible false d.setters,
          (c.renamed s).isReactable && ((c.renamed s).assigned d.setters).reads d.tracked,
          ((StateDeclaration.ofStatement? (c.renamed s)).toOption.map Option.isSome,
            (c.renamed s).gives.contains "y"),
          [c.returnIndex, c.aliasTexts.length])) =
      some (true, true, (some false, true), [3, 0]) := by
    rw [(by apply String.toList_ofList : chainSource = _)]
    decide +kernel
  obtain ⟨module, hmodule, hsource⟩ := Option.bind_eq_some_iff.1 hsource
  obtain ⟨c, hc, hsource⟩ := of_toOption_bind hsource
  obtain ⟨b, hb, hsource⟩ := of_toOption_bind hsource
  obtain ⟨d, hd, hsource⟩ := of_toOption_bind hsource
  obtain ⟨s, hs, hsource⟩ := Option.map_eq_some_iff.1 hsource
  simp only [Prod.mk.injEq, Bool.and_eq_true, List.cons.injEq, and_true] at hsource
  obtain ⟨⟨hholes, hread⟩, ⟨hreactable, hreads⟩, ⟨hstate, hgives⟩, hreturn, haliases⟩ := hsource
  have hholes : ∀ s ∈ c.body, s.hasHole = false := by simpa using hholes
  obtain ⟨aliases, htexts, -, hstatements⟩ := labelled_of_reads hc hb hd hholes hread
  have hzero : aliases.length = 0 := by
    rw [← haliases, ← List.length_map (f := Template.read false), htexts, List.length_map]
  obtain ⟨t, ht, hlabelled, -⟩ := hstatements 1 s hs (by omega) fun sd hsd => by
    rw [hsd] at hstate
    cases hstate
  obtain ⟨hrelates, hlabels, hfollowed⟩ := hlabelled hreactable (.inr hreads)
  rw [hzero] at ht
  exact ⟨_, module, c, b, d, s, t, hc, hb, hd, hholes, hread, hs, hreads, ht, hrelates, hlabels,
    hfollowed (List.contains_iff_mem.1 hgives)⟩

/-- A name that is assigned within a labelled statement is not followed, and what reads it
    is not labelled. -/
theorem assignment_in_branch_not_followed :
    ((compileThrough {} [.props, .state] "export default (\x7b a \x7d) => \x7b
        let y; if (a) \x7b y = 1; \x7d const z = y; return <p>\x7bz\x7d</p>; \x7d;"
        ).toOption.bind fun d =>
      d.body[2]?.map fun s => (d.body.map Node.labels, s.reads ["y"], d.tracked.contains "y")) =
      some ([0, 1, 0, 0], true, false) := by
  conv =>
    enter [1, 1, 1, 3]
    apply String.toList_ofList
  decide +kernel

end Component

end Unhook
