import Mathlib.Data.Set.Card
import Unhook.Proofs.Following

/-!
# The least set of reactive statements

Making statements reactive goes on in rounds, and what one statement gives a value
to decides whether another one, further up or down, has to be made reactive as
well. In the end the rounds have found a *closed* set of statements, one that has
every statement that reads a name followed because of it, and the smallest such
set. It follows that the order of the statements does not matter, and that there is
nothing left to do.

* `Component.Closed`: the sets of statements among which the one that is found is
  the least;
* `Component.mem_rewritten_iff`: which statements are made reactive;
* `Component.Reordered.propagate`: the order of the statements does not matter;
* `Component.propagate_isLeast`: the statements that are made reactive.
-/

namespace Unhook

namespace Component

variable {typescript : Bool} {c c' d : Component} {n i : Nat}

/-! ### Closed sets of statements -/

/-- The statement `s` at `i` is neither settled nor exempt, and it is not the return. -/
structure Eligible (c : Component) (i : Nat) (s : Node) : Prop where
  stands : c.body[i]? = some s
  isOpen : c.isOpen i = true
  ne_return : i ≠ c.returnIndex

/-- While statements are made reactive, one that has to be made so is still as it was. -/
theorem Spread.eligible_of_due (hc : Spread typescript [] c d) (hdue : d.isDue i = true) :
    ∃ s, d.body[i]? = some s ∧ c.Eligible i s ∧ s.reads d.tracked = true := by
  unfold isDue at hdue
  split at hdue
  · next s hs =>
    simp only [Bool.and_eq_true, decide_eq_true_eq] at hdue
    obtain ⟨⟨hopen, hne⟩, hreads⟩ := hdue
    have hnew := not_mem_settled hopen
    have hs₀ : c.body[i]? = some s := (hc.rest i fun hi => absurd hi hnew).symm.trans hs
    refine ⟨s, hs, ⟨hs₀, ?_, ?_⟩, hreads⟩
    · have hi : i ∉ c.settled := fun hi => hnew (hc.settled hi)
      rw [isOpen, hc.sameState.exempt] at hopen
      rw [isOpen]
      simp_all
    · rwa [returnIndex, ← hc.sameState.length]
  · simp at hdue

/-- The names that are followed when the statements of `B` are reactive. -/
def followedBy (c : Component) (B : Set Nat) : Set Text :=
  {x | x ∈ c.tracked ∨ ∃ i ∈ B, ∃ s, c.body[i]? = some s ∧ x ∈ s.gives}

/-- A set of statements that has each one that can be made reactive and reads a name
    that is followed because of the set. -/
def Closed (c : Component) (B : Set Nat) : Prop :=
  ∀ i s, c.Eligible i s → s.isReactable = true → (∃ x ∈ c.followedBy B, s.reads [x] = true) → i ∈ B

/-- The statements of `c` in whose place their reactive forms stand in `c'`. -/
def rewritten (typescript : Bool) (c c' : Component) : Set Nat :=
  {i | ∃ s r names, c.body[i]? = some s ∧ reactiveForm typescript s = .ok (some (r, names)) ∧
    c'.body[i]? = some r}

/-- A reactive form is not the statement that it is a form of. -/
theorem ne_of_mem_rewritten (hi : i ∈ c.rewritten typescript c') : c'.body[i]? ≠ c.body[i]? := by
  obtain ⟨s, r, names, hs, hr, hr'⟩ := hi
  obtain ⟨hreactable, hkind, -⟩ := Node.of_reactiveForm_eq_some hr
  rw [hs, hr']
  intro heq
  cases heq
  exact Node.kind_of_isReactable hreactable _ hkind

theorem finite_rewritten (c c' : Component) : (c.rewritten typescript c').Finite := by
  refine (Set.finite_lt_nat c.body.length).subset fun i hi => ?_
  obtain ⟨s, r, names, hs, -⟩ := hi
  exact (List.getElem?_eq_some_iff.1 hs).1

/-! ### Rounds that succeed -/

/-- The rounds succeed where every statement that has to be made reactive can be. -/
theorem propagate_succeeds {P : Component → Prop}
    (hP : ∀ {c c' : Component} {i bound}, c.isDue i = true →
      c.settle typescript i = .ok (c', bound) → P c → P c')
    (hok : ∀ {c : Component} {i}, P c → c.isDue i = true → ∃ r, c.settle typescript i = .ok r)
    (hc : P c) : ∃ r, c.propagate typescript = .ok r := by
  have hround (is : List Nat) (c : Component) (hc : P c) :
      ∃ d n, c.round typescript is = .ok (d, n) ∧ P d := by
    induction is generalizing c with
    | nil => exact ⟨c, 0, rfl, hc⟩
    | cons i is ih =>
      rw [round]
      split
      · next hdue =>
        obtain ⟨⟨d, bound⟩, hd⟩ := hok hc hdue
        obtain ⟨e, m, he, hPe⟩ := ih d (hP hdue hd hc)
        exact ⟨e, m + bound.toNat, by rw [hd]; simp only [bind, Except.bind, he]; rfl, hPe⟩
      · exact ih c hc
  have hrounds (fuel : Nat) (c : Component) (hc : P c) :
      ∃ r, c.rounds typescript fuel = .ok r := by
    induction fuel generalizing c with
    | zero => exact ⟨_, rfl⟩
    | succ fuel ih =>
      obtain ⟨d, m, hd, hPd⟩ := hround (List.range c.body.length) c hc
      obtain ⟨⟨e, l⟩, he⟩ := ih d hPd
      rw [rounds, hd]
      by_cases hm : m = 0
      · exact ⟨(d, 0), by simp [bind, Except.bind, hm, pure, Except.pure]⟩
      · exact ⟨(e, m + l), by simp [bind, Except.bind, hm, he, pure, Except.pure]⟩
  exact hrounds _ c hc

/-- Where nothing is due, the rounds change nothing. -/
theorem propagate_of_done (h : ∀ i, c.isDue i = false) : c.propagate typescript = .ok (c, 0) := by
  have hround (is : List Nat) : c.round typescript is = .ok (c, 0) := by
    induction is with
    | nil => rfl
    | cons i is ih => rw [round, h i, if_neg Bool.false_ne_true, ih]
  rw [propagate, rounds, hround]
  rfl

/-! ### Which statements are settled and rewritten -/

section

variable (h : c.propagate typescript = .ok (c', n)) {i : Nat}

include h

/-- The statements that are settled in the end are those that were, and those that read
    a followed name. -/
theorem settled_iff :
    i ∈ c'.settled ↔ i ∈ c.settled ∨ ∃ s, c.Eligible i s ∧ s.reads c'.tracked = true := by
  have hspread := (Spread.refl [] c).propagate h
  constructor
  · intro hi
    refine or_iff_not_imp_left.2 fun hnew => ?_
    obtain ⟨hopen, s, hs, hreads, -⟩ := hspread.labelled i hi hnew
    refine ⟨s, ⟨hs, hopen, ?_⟩, hreads.resolve_left List.not_mem_nil⟩
    rintro rfl
    -- Nothing that is due is the return.
    refine hnew (propagate_keeps_due (P := fun e => e.body.length = c.body.length ∧
      (c.returnIndex ∈ e.settled → c.returnIndex ∈ c.settled)) ?_ h ⟨rfl, id⟩ |>.2 hi)
    intro e e' j bound hdue he hkeeps
    refine ⟨(settle_sameState he).length.trans hkeeps.1, fun hmem => hkeeps.2 ?_⟩
    rcases settle_eq_ok he with ⟨rfl, -⟩ | ⟨s, -, -, ⟨-, -, rfl⟩ | ⟨r, names, -, -, rfl⟩⟩
    · exact hmem
    all_goals
      refine (List.mem_append.1 hmem).resolve_right fun hj => ?_
      rw [← List.mem_singleton.1 hj] at hdue
      simp [isDue, returnIndex, hkeeps.1] at hdue
  · rintro (hi | ⟨s, hs, hreads⟩)
    · exact hspread.settled hi
    · exact hspread.settled_of_reads (propagate_done h) hs.stands hs.isOpen hs.ne_return hreads

/-- A statement that reads a followed name is made reactive, if it can be, and what it
    gives values to is followed. -/
theorem form_of_reads {s : Node} (hs : c.Eligible i s) (hreads : s.reads c'.tracked = true) :
    reactiveForm typescript s = .ok none ∧ c'.body[i]? = some s ∨
      ∃ r, reactiveForm typescript s = .ok (some (r, s.gives)) ∧ c'.body[i]? = some r ∧
        s.gives ⊆ c'.tracked := by
  obtain ⟨-, t, ht, -, hform⟩ := ((Spread.refl [] c).propagate h).labelled i
    ((settled_iff h).2 (.inr ⟨s, hs, hreads⟩)) (not_mem_settled hs.isOpen)
  cases hs.stands.symm.trans ht
  refine hform.imp_right ?_
  rintro ⟨r, names, hr, hbody, hnames⟩
  obtain ⟨-, -, rfl⟩ := Node.of_reactiveForm_eq_some hr
  exact ⟨r, hr, hbody, hnames⟩

/-- The statements that are made reactive are those that can be and read a followed
    name. -/
theorem mem_rewritten_iff : i ∈ c.rewritten typescript c' ↔
    ∃ s, c.Eligible i s ∧ s.isReactable = true ∧ s.reads c'.tracked = true := by
  constructor
  · intro hi
    have hsettled : i ∈ c'.settled ∧ i ∉ c.settled := by
      refine Decidable.byContradiction fun hnot => ne_of_mem_rewritten hi ?_
      refine ((Spread.refl [] c).propagate h).rest i fun hmem => ?_
      exact Decidable.byContradiction fun hnew => hnot ⟨hmem, hnew⟩
    obtain ⟨s, hs, hreads⟩ := ((settled_iff h).1 hsettled.1).resolve_left hsettled.2
    obtain ⟨t, r, names, ht, hr, -⟩ := hi
    cases hs.stands.symm.trans ht
    exact ⟨s, hs, (Node.of_reactiveForm_eq_some hr).1, hreads⟩
  · rintro ⟨s, hs, hreactable, hreads⟩
    obtain ⟨hnone, -⟩ | ⟨r, hr, hbody, -⟩ := form_of_reads h hs hreads
    · rw [Node.of_reactiveForm_eq_none hnone] at hreactable
      cases hreactable
    · exact ⟨s, r, s.gives, hs.stands, hr, hbody⟩

/-- A statement that is not made reactive stays as it is. -/
theorem body_of_not_mem_rewritten (hi : i ∉ c.rewritten typescript c') :
    c'.body[i]? = c.body[i]? := by
  have hspread := (Spread.refl [] c).propagate h
  by_cases hnew : i ∈ c'.settled ∧ i ∉ c.settled
  · obtain ⟨-, s, hs, -, ⟨-, hbody⟩ | ⟨r, names, hr, hbody, -⟩⟩ :=
      hspread.labelled i hnew.1 hnew.2
    · rw [hbody, hs]
    · exact absurd ⟨s, r, names, hs, hr, hbody⟩ hi
  · refine hspread.rest i fun hmem => Decidable.byContradiction fun hnot => hnew ⟨hmem, hnot⟩

/-- The names that are followed in the end are those that were, and those that the
    statements made reactive give values to. -/
theorem mem_tracked_iff {x : Text} :
    x ∈ c'.tracked ↔ x ∈ c.followedBy (c.rewritten typescript c') := by
  have hspread := (Spread.refl [] c).propagate h
  constructor
  · intro hx
    refine (hspread.given x hx).imp_right ?_
    rintro ⟨i, hi, hnew, s, r, names, hs, hr, hx⟩
    obtain ⟨hreactable, -, rfl⟩ := Node.of_reactiveForm_eq_some hr
    obtain ⟨t, ht, hreads⟩ := ((settled_iff h).1 hi).resolve_left hnew
    cases hs.symm.trans ht.stands
    exact ⟨i, (mem_rewritten_iff h).2 ⟨s, ht, hreactable, hreads⟩, s, hs, hx⟩
  · rintro (hx | ⟨i, hi, s, hs, hx⟩)
    · exact hspread.tracked hx
    · obtain ⟨t, ht, hreactable, hreads⟩ := (mem_rewritten_iff h).1 hi
      cases hs.symm.trans ht.stands
      obtain ⟨hnone, -⟩ | ⟨r, -, -, hgives⟩ := form_of_reads h ht hreads
      · rw [Node.of_reactiveForm_eq_none hnone] at hreactable
        cases hreactable
      · exact hgives hx

theorem closed_rewritten : c.Closed (c.rewritten typescript c') := by
  rintro i s hs hreactable ⟨x, hx, hreads⟩
  exact (mem_rewritten_iff h).2
    ⟨s, hs, hreactable, Node.reads_iff.2 ⟨x, (mem_tracked_iff h).2 hx, hreads⟩⟩

/-- What is followed in the end is followed because of any closed set. -/
theorem tracked_subset_of_closed {B : Set Nat} (hB : c.Closed B) :
    ∀ x ∈ c'.tracked, x ∈ c.followedBy B := by
  refine (propagate_keeps_due (P := fun e => Spread typescript [] c e ∧
    ∀ x ∈ e.tracked, x ∈ c.followedBy B) ?_ h ⟨.refl [] c, fun x hx => .inl hx⟩).2
  intro e e' i bound hdue he hP
  obtain ⟨hspread, htracked⟩ := hP
  refine ⟨hspread.settle he (.inr hdue), fun x hx => ?_⟩
  rcases settle_eq_ok he with ⟨rfl, -, -⟩ | ⟨s, hs, -, ⟨-, -, rfl⟩ | ⟨r, names, hr, -, rfl⟩⟩
  · exact htracked x hx
  · exact htracked x hx
  · rcases mem_track.1 hx with hx | hx
    · exact htracked x hx
    · obtain ⟨t, ht, heligible, hreads⟩ := hspread.eligible_of_due hdue
      cases hs.symm.trans ht
      obtain ⟨hreactable, -, rfl⟩ := Node.of_reactiveForm_eq_some hr
      obtain ⟨y, hy, hreads⟩ := Node.reads_iff.1 hreads
      exact .inr ⟨i, hB i s heligible hreactable ⟨y, htracked y hy, hreads⟩, s, heligible.stands, hx⟩

theorem rewritten_subset_of_closed {B : Set Nat} (hB : c.Closed B) :
    c.rewritten typescript c' ⊆ B := by
  intro i hi
  obtain ⟨s, hs, hreactable, hreads⟩ := (mem_rewritten_iff h).1 hi
  obtain ⟨x, hx, hreads⟩ := Node.reads_iff.1 hreads
  exact hB i s hs hreactable ⟨x, tracked_subset_of_closed h hB x hx, hreads⟩

/-- As many statements are made reactive as the rounds count. -/
theorem count_rewritten : n = (c.rewritten typescript c').ncard := by
  have hnone : c.rewritten typescript c = ∅ :=
    Set.eq_empty_of_forall_notMem fun i hi => ne_of_mem_rewritten hi rfl
  refine (propagate_counts (P := fun e k => Spread typescript [] c e ∧
    k = (c.rewritten typescript e).ncard) ?_ h ⟨.refl [] c, by simp [hnone]⟩).2
  intro e e' i bound k hdue he hP
  obtain ⟨hspread, rfl⟩ := hP
  refine ⟨hspread.settle he (.inr hdue), ?_⟩
  rcases settle_eq_ok he with
    ⟨rfl, rfl, -⟩ | ⟨s, hs, hopen, ⟨-, rfl, rfl⟩ | ⟨r, names, hr, rfl, rfl⟩⟩
  · rfl
  · rfl
  · have hs₀ : c.body[i]? = some s :=
      (hspread.rest i fun hi => absurd hi (not_mem_settled hopen)).symm.trans hs
    have hi : i ∉ c.rewritten typescript e := fun hi => ne_of_mem_rewritten hi (hs.trans hs₀.symm)
    have hinsert : c.rewritten typescript
        ({ e with settled := e.settled ++ [i], body := e.body.set i r }.track names) =
        insert i (c.rewritten typescript e) := by
      ext j
      by_cases hij : j = i
      · subst hij
        refine iff_of_true ⟨s, r, names, hs₀, hr, ?_⟩ (Set.mem_insert _ _)
        exact List.getElem?_set_self (List.getElem?_eq_some_iff.1 hs).1
      · simp [rewritten, track, hij, List.getElem?_set_ne (Ne.symm hij)]
    rw [hinsert, Set.ncard_insert_of_notMem hi (finite_rewritten c e)]
    rfl

end

/-! ### The order of the statements -/

/-- A component with the statements of `c` in another order, the one at `i` being that
    at `σ i`, and the return in its place; the same statements are settled and exempt,
    and the same names are followed. -/
structure Reordered (σ : Equiv.Perm Nat) (c d : Component) : Prop where
  length : d.body.length = c.body.length
  body : ∀ i, d.body[i]? = c.body[σ i]?
  returnIndex : σ c.returnIndex = c.returnIndex
  settled : ∀ i, i ∈ d.settled ↔ σ i ∈ c.settled
  exempt : ∀ i, i ∈ d.exempt ↔ σ i ∈ c.exempt
  tracked : ∀ x, x ∈ d.tracked ↔ x ∈ c.tracked

namespace Reordered

variable {σ : Equiv.Perm Nat}

theorem symm (hd : Reordered σ c d) : Reordered σ.symm d c := by
  have hreturn : d.returnIndex = c.returnIndex := by
    rw [Component.returnIndex, Component.returnIndex, hd.length]
  refine ⟨hd.length.symm, fun i => ?_, ?_, fun i => ?_, fun i => ?_, fun x => (hd.tracked x).symm⟩
  · rw [hd.body, Equiv.apply_symm_apply]
  · rw [hreturn, Equiv.symm_apply_eq, hd.returnIndex]
  · rw [hd.settled, Equiv.apply_symm_apply]
  · rw [hd.exempt, Equiv.apply_symm_apply]

theorem eligible_iff (hd : Reordered σ c d) {i : Nat} {s : Node} :
    d.Eligible i s ↔ c.Eligible (σ i) s := by
  have hreturn : d.returnIndex = c.returnIndex := by
    rw [Component.returnIndex, Component.returnIndex, hd.length]
  have hopen : d.isOpen i = c.isOpen (σ i) := by
    simp [isOpen, hd.settled, hd.exempt]
  have hne : i ≠ d.returnIndex ↔ σ i ≠ c.returnIndex := by
    rw [hreturn, ne_eq, ne_eq, ← σ.injective.eq_iff, hd.returnIndex]
  constructor
  · exact fun hs => ⟨(hd.body i).symm.trans hs.stands, hopen ▸ hs.isOpen, hne.1 hs.ne_return⟩
  · exact fun hs => ⟨(hd.body i).trans hs.stands, hopen ▸ hs.isOpen, hne.2 hs.ne_return⟩

/-- What the rounds find in one order they find in any other. -/
theorem tracked_subset (hd : Reordered σ c d) (h : c.propagate typescript = .ok (c', n))
    {d' : Component} {m : Nat} (h' : d.propagate typescript = .ok (d', m)) :
    ∀ x ∈ d'.tracked, x ∈ c'.tracked := by
  have hclosed : d.Closed {i | σ i ∈ c.rewritten typescript c'} := by
    rintro i s hs hreactable ⟨x, hx, hreads⟩
    refine closed_rewritten h (σ i) s (hd.eligible_iff.1 hs) hreactable ⟨x, ?_, hreads⟩
    refine hx.imp (hd.tracked x).1 ?_
    rintro ⟨j, hj, t, ht, hx⟩
    exact ⟨σ j, hj, t, (hd.body j).symm.trans ht, hx⟩
  intro x hx
  refine (mem_tracked_iff h).2 ((tracked_subset_of_closed h' hclosed x hx).imp (hd.tracked x).1 ?_)
  rintro ⟨j, hj, t, ht, hx⟩
  exact ⟨σ j, hj, t, (hd.body j).symm.trans ht, hx⟩

/-- In any order every statement that has to be made reactive can be. -/
theorem succeeds (hd : Reordered σ c d) (h : c.propagate typescript = .ok (c', n)) :
    ∃ r, d.propagate typescript = .ok r := by
  have hform {e : Component} {i : Nat} (hspread : Spread typescript [] d e)
      (htracked : ∀ x ∈ e.tracked, x ∈ c'.tracked) (hdue : e.isDue i = true) :
      ∃ s, e.body[i]? = some s ∧ (reactiveForm typescript s = .ok none ∨
        ∃ r, reactiveForm typescript s = .ok (some (r, s.gives)) ∧ s.gives ⊆ c'.tracked) := by
    obtain ⟨s, hs, heligible, hreads⟩ := hspread.eligible_of_due hdue
    refine ⟨s, hs, ?_⟩
    rcases form_of_reads h (hd.eligible_iff.1 heligible) (Node.reads_mono htracked s hreads) with
      ⟨hnone, -⟩ | ⟨r, hr, -, hgives⟩
    · exact .inl hnone
    · exact .inr ⟨r, hr, hgives⟩
  refine propagate_succeeds (P := fun e => Spread typescript [] d e ∧
    ∀ x ∈ e.tracked, x ∈ c'.tracked) ?_ ?_ ⟨.refl [] d, fun x hx => ?_⟩
  · intro e e' i bound hdue he hP
    obtain ⟨hspread, htracked⟩ := hP
    refine ⟨hspread.settle he (.inr hdue), fun x hx => ?_⟩
    obtain ⟨s, hs, hform⟩ := hform hspread htracked hdue
    rcases settle_eq_ok he with
      ⟨rfl, -, -⟩ | ⟨t, ht, -, ⟨-, -, rfl⟩ | ⟨r, names, hr, -, rfl⟩⟩
    · exact htracked x hx
    · exact htracked x hx
    · cases hs.symm.trans ht
      rcases mem_track.1 hx with hx | hx
      · exact htracked x hx
      · rcases hform with hnone | ⟨r', hr', hgives⟩
        · rw [hnone] at hr
          cases hr
        · rw [hr'] at hr
          cases hr
          exact hgives hx
  · rintro e i ⟨hspread, htracked⟩ hdue
    obtain ⟨s, hs, hform⟩ := hform hspread htracked hdue
    unfold settle
    rw [hs]
    dsimp only
    split
    · rcases hform with hnone | ⟨r, hr, -⟩
      · exact ⟨_, by rw [hnone]; rfl⟩
      · exact ⟨_, by rw [hr]; rfl⟩
    · exact ⟨_, rfl⟩
  · exact ((Spread.refl [] c).propagate h).tracked ((hd.tracked x).1 hx)

/-- The rounds do the same in any order. -/
theorem propagate (hd : Reordered σ c d) (h : c.propagate typescript = .ok (c', n)) :
    ∃ d', d.propagate typescript = .ok (d', n) ∧ Reordered σ c' d' := by
  obtain ⟨⟨d', m⟩, h'⟩ := hd.succeeds h
  have htracked (x : Text) : x ∈ d'.tracked ↔ x ∈ c'.tracked :=
    ⟨hd.tracked_subset h h' x, hd.symm.tracked_subset h' h x⟩
  have hreads (s : Node) : s.reads d'.tracked = true ↔ s.reads c'.tracked = true :=
    ⟨Node.reads_mono (fun x => (htracked x).1) s, Node.reads_mono (fun x => (htracked x).2) s⟩
  have hstate := propagate_sameState h
  have hstate' := propagate_sameState h'
  have hsettled (i : Nat) : i ∈ d'.settled ↔ σ i ∈ c'.settled := by
    simp only [settled_iff h, settled_iff h', hd.settled, hd.eligible_iff, hreads]
  have hrewritten (i : Nat) :
      i ∈ d.rewritten typescript d' ↔ σ i ∈ c.rewritten typescript c' := by
    simp only [mem_rewritten_iff h, mem_rewritten_iff h', hd.eligible_iff, hreads]
  have hcount : m = n := by
    have himage : c.rewritten typescript c' = σ '' d.rewritten typescript d' := by
      ext i
      rw [Equiv.image_eq_preimage_symm, Set.mem_preimage, hrewritten, Equiv.apply_symm_apply]
    rw [count_rewritten h, count_rewritten h', himage, Set.ncard_image_of_injective _ σ.injective]
  refine ⟨d', hcount ▸ h', ?_, fun i => ?_, ?_, hsettled, fun i => ?_, htracked⟩
  · rw [hstate'.length, hstate.length, hd.length]
  · by_cases hi : i ∈ d.rewritten typescript d'
    · have hi' := (hrewritten i).1 hi
      obtain ⟨s, r, names, hs, hr, hbody⟩ := hi
      obtain ⟨s', r', names', hs', hr', hbody'⟩ := hi'
      cases ((hd.body i).symm.trans hs).symm.trans hs'
      cases hr.symm.trans hr'
      rw [hbody, hbody']
    · rw [body_of_not_mem_rewritten h' hi, hd.body,
        body_of_not_mem_rewritten h fun hi' => hi ((hrewritten i).2 hi')]
  · rw [Component.returnIndex, hstate.length]
    exact hd.returnIndex
  · rw [hstate'.exempt, hstate.exempt, hd.exempt]

end Reordered

/-- The statements that are made reactive are the least set that has every statement
    that can be made so and reads a name followed because of the set; they are as many
    as the rounds count, in their places stand their reactive forms, and no other
    statement is changed. The names that are followed in the end are those that were and
    those that these statements give values to. Whatever the order of the statements, the
    outcome is the same, and once more there is nothing to do. -/
theorem propagate_isLeast (h : c.propagate typescript = .ok (c', n)) :
    IsLeast {B | c.Closed B} (c.rewritten typescript c') ∧
      (∀ x, x ∈ c'.tracked ↔ x ∈ c.followedBy (c.rewritten typescript c')) ∧
      n = (c.rewritten typescript c').ncard ∧
      (∀ i, c'.body[i]? = c.body[i]? ↔ i ∉ c.rewritten typescript c') ∧
      (∀ σ d, Reordered σ c d → ∃ d', d.propagate typescript = .ok (d', n) ∧ Reordered σ c' d') ∧
      c'.propagate typescript = .ok (c', 0) := by
  refine ⟨⟨closed_rewritten h, fun B => rewritten_subset_of_closed h⟩, fun x => mem_tracked_iff h,
    count_rewritten h, fun i => ⟨fun hsame hi => ne_of_mem_rewritten hi hsame,
      body_of_not_mem_rewritten h⟩, fun σ d hd => hd.propagate h,
    propagate_of_done (propagate_done h)⟩

/-- A component in which what is followed spreads upwards, and in which a declaration of
    two variables reads a followed name. -/
def spreadSource : Text :=
  "export default () => \x7b
    const b = a * 2;
    const a = p + 1;
    let u = p, v;
    const k = 3;
    return <p/>;
  \x7d;"

theorem spread_isLeast :
    ∃ c c' : Component, c.tracked = ["p"] ∧ c.propagate false = .ok (c', 2) ∧
      IsLeast {B | c.Closed B} (c.rewritten false c') ∧ (c.rewritten false c').ncard = 2 ∧
      c'.body[3]? = c.body[3]? ∧ c'.propagate false = .ok (c', 0) := by
  have hsource : ((compileThrough {} [] spreadSource).toOption.bind fun c =>
      (propagate false { c with tracked := ["p"] }).toOption.map fun r =>
        (r.2, r.1.body.map Node.labels, r.1.settled)) = some (2, [1, 1, 0, 0, 0], [1, 2, 0]) := by
    rw [(by apply String.toList_ofList : spreadSource = _)]
    decide +kernel
  obtain ⟨c, -, hsource⟩ := of_toOption_bind hsource
  obtain ⟨⟨c', n⟩, hc', hsource⟩ := of_toOption_map hsource
  simp only [Prod.mk.injEq] at hsource
  obtain ⟨rfl, hlabels, hsettled⟩ := hsource
  obtain ⟨hleast, -, hcount, -, -, hdone⟩ := propagate_isLeast hc'
  refine ⟨{ c with tracked := ["p"] }, c', rfl, hc', hleast, hcount.symm, ?_, hdone⟩
  exact ((Spread.refl [] _).propagate hc').rest 3 fun h => by simp [hsettled] at h

end Component

end Unhook
