import Unhook.Component.Reactive

/-!
# What becomes of statements

Making statements reactive goes over the body again and again, but it does
little to it: a statement stays what it was, or is made reactive once. Whoever
knows what a statement was before thus knows all that it can be afterwards.

* `Component.settle_eq_ok`: what making one statement reactive can do;
* `Component.Reacts`: a component in which every statement is one of the given
  ones, or that one made reactive;
* `Component.propagate_reacts`: this is so for all the rounds.
-/

namespace Unhook

variable {ε α β : Type} {x : Except ε α} {b : β}

/-- Where a sequence of two computations succeeds, both do. -/
theorem of_bind_eq_ok {f : α → Except ε β}
    (h : (x >>= f) = .ok b) : ∃ a, x = .ok a ∧ f a = .ok b := by
  cases x with
  | error e => cases h
  | ok a => exact ⟨a, rfl, h⟩

theorem of_toOption_bind {f : α → Option β}
    (h : x.toOption.bind f = some b) : ∃ a, x = .ok a ∧ f a = some b := by
  cases x with
  | error e => cases h
  | ok a => exact ⟨a, rfl, h⟩

theorem of_toOption_map {f : α → β} (h : x.toOption.map f = some b) : ∃ a, x = .ok a ∧ f a = b := by
  cases x with
  | error e => cases h
  | ok a => exact ⟨a, rfl, Option.some.inj h⟩

theorem of_isSome_toOption (h : x.toOption.isSome = true) : ∃ a, x = .ok a := by
  cases x with
  | error e => cases h
  | ok a => exact ⟨a, rfl⟩

theorem mem_insertNew {x y : Text} {xs : List Text} : x ∈ insertNew y xs ↔ x = y ∨ x ∈ xs := by
  unfold insertNew
  split
  · next h => exact ⟨.inr, fun hx => hx.elim (fun hx => hx ▸ h) id⟩
  · rw [List.mem_append, List.mem_singleton, or_comm]

theorem nodup_insertNew {x : Text} {xs : List Text} (h : xs.Nodup) : (insertNew x xs).Nodup := by
  unfold insertNew
  split
  · exact h
  · next hx => exact List.nodup_append.2 ⟨h, by simp, fun y hy z hz hyz =>
      hx (by rwa [← List.mem_singleton.1 hz, ← hyz])⟩

namespace Component

variable {typescript bound : Bool} {c c' : Component} {n i : Nat}

/-- Making a statement reactive does nothing to a statement that is not open; an open
    one is settled, and replaced by its reactive form if it has one. -/
theorem settle_eq_ok (h : c.settle typescript i = .ok (c', bound)) :
    (c' = c ∧ bound = false ∧ ∀ s, c.body[i]? = some s → c.isOpen i = false) ∨
    ∃ s, c.body[i]? = some s ∧ c.isOpen i = true ∧
      (reactiveForm typescript s = .ok none ∧ bound = false ∧
        c' = { c with settled := c.settled ++ [i] } ∨
      ∃ r names, reactiveForm typescript s = .ok (some (r, names)) ∧ bound = true ∧
        c' = { c with settled := c.settled ++ [i], body := c.body.set i r }.track names) := by
  unfold settle at h
  split at h
  · next hs =>
    cases h
    exact .inl ⟨rfl, rfl, fun s hs' => by rw [hs] at hs'; cases hs'⟩
  · next s hs =>
    split at h
    · next hopen =>
      obtain ⟨f, hf, h⟩ := of_bind_eq_ok h
      refine .inr ⟨s, hs, hopen, ?_⟩
      rcases f with _ | ⟨r, names⟩
      · cases h
        exact .inl ⟨hf, rfl, rfl⟩
      · cases h
        exact .inr ⟨r, names, hf, rfl, rfl⟩
    · next hopen =>
      cases h
      exact .inl ⟨rfl, rfl, fun _ _ => Bool.eq_false_iff.2 hopen⟩

theorem not_mem_settled (h : c.isOpen i = true) : i ∉ c.settled := by
  rw [isOpen] at h
  simp_all

/-- Every statement of a component is the one at the same position in `body`, or
    else it is settled and the reactive form of that one. -/
def Reacts (typescript : Bool) (body : List Node) (c : Component) : Prop :=
  ∀ i s, body[i]? = some s → c.body[i]? = some s ∨
    i ∈ c.settled ∧ ∃ r names, reactiveForm typescript s = .ok (some (r, names)) ∧
      c.body[i]? = some r

theorem Reacts.refl (c : Component) : c.Reacts typescript c.body := fun _ _ h => .inl h

/-- A statement that is not settled is as it was, so what replaces it is its own
    reactive form. -/
theorem settle_reacts {body : List Node}
    (h : c.settle typescript i = .ok (c', bound)) (hc : c.Reacts typescript body) :
    c'.Reacts typescript body := by
  rcases settle_eq_ok h with ⟨rfl, -⟩ | ⟨s, hs, hopen, hcases⟩
  · exact hc
  · intro j t ht
    have hj := (hc j t ht).imp_right (And.imp_left (List.mem_append_left [i]))
    rcases hcases with ⟨-, -, rfl⟩ | ⟨r, names, hr, -, rfl⟩
    · exact hj
    · by_cases hij : i = j
      · subst hij
        obtain hst | ⟨hmem, -⟩ := hc i t ht
        · cases hs.symm.trans hst
          exact .inr ⟨List.mem_append_right _ List.mem_cons_self, r, names, hr,
            List.getElem?_set_self (List.getElem?_eq_some_iff.1 hs).1⟩
        · exact absurd hmem (not_mem_settled hopen)
      · rw [← List.getElem?_set_ne (a := r) hij] at hj
        exact hj

/-! ### Rounds -/

theorem round_counts {P : Component → Nat → Prop}
    (hP : ∀ {c c' : Component} {i bound k}, c.isDue i = true →
      c.settle typescript i = .ok (c', bound) → P c k → P c' (k + bound.toNat))
    {is : List Nat} {n k : Nat} (h : c.round typescript is = .ok (c', n)) (hc : P c k) :
    P c' (k + n) := by
  induction is generalizing c n k with
  | nil =>
    cases h
    exact hc
  | cons i is ih =>
    rw [round] at h
    split at h
    · next hdue =>
      obtain ⟨⟨d, bound⟩, hd, h⟩ := of_bind_eq_ok h
      obtain ⟨⟨e, m⟩, he, h⟩ := of_bind_eq_ok h
      cases h
      have hc' := ih he (hP hdue hd hc)
      rwa [Nat.add_assoc, Nat.add_comm bound.toNat] at hc'
    · exact ih h hc

/-- What making a statement reactive does to a component and a count holds of all the
    rounds. -/
theorem propagate_counts {P : Component → Nat → Prop}
    (hP : ∀ {c c' : Component} {i bound k}, c.isDue i = true →
      c.settle typescript i = .ok (c', bound) → P c k → P c' (k + bound.toNat))
    (h : c.propagate typescript = .ok (c', n)) (hc : P c 0) : P c' n := by
  have hrounds (fuel : Nat) (c : Component) (n k : Nat)
      (h : c.rounds typescript fuel = .ok (c', n)) (hc : P c k) : P c' (k + n) := by
    induction fuel generalizing c n k with
    | zero =>
      cases h
      exact hc
    | succ fuel ih =>
      obtain ⟨⟨d, m⟩, hd, h⟩ := of_bind_eq_ok h
      have hd := round_counts hP hd hc
      dsimp only at h
      split at h
      · next hm =>
        cases h
        exact hm ▸ hd
      · obtain ⟨⟨e, l⟩, he, h⟩ := of_bind_eq_ok h
        cases h
        rw [← Nat.add_assoc]
        exact ih d l _ he hd
  simpa using hrounds _ c n 0 h hc

/-- What making a statement reactive that has to be so keeps is kept by all the
    rounds. -/
theorem propagate_keeps_due {P : Component → Prop}
    (hP : ∀ {c c' : Component} {i bound}, c.isDue i = true →
      c.settle typescript i = .ok (c', bound) → P c → P c')
    (h : c.propagate typescript = .ok (c', n)) (hc : P c) : P c' :=
  propagate_counts (P := fun c _ => P c) hP h hc

/-- What making one statement reactive keeps is kept by all the rounds. -/
theorem propagate_keeps {P : Component → Prop}
    (hP : ∀ {c c' : Component} {i bound}, c.settle typescript i = .ok (c', bound) → P c → P c')
    (h : c.propagate typescript = .ok (c', n)) (hc : P c) : P c' :=
  propagate_keeps_due (fun _ => hP) h hc

/-- Whatever has to be made reactive, a statement is made so at most once. -/
theorem propagate_reacts {body : List Node}
    (h : c.propagate typescript = .ok (c', n)) (hc : c.Reacts typescript body) :
    c'.Reacts typescript body :=
  propagate_keeps settle_reacts h hc

/-- A component `d` that differs from `c` in the statements of the body and in
    what is known of them only. -/
structure SameFrame (c d : Component) : Prop where
  params : d.params = c.params
  module : d.module = c.module
  fields : d.fields = c.fields
  blocks : d.blocks = c.blocks

theorem SameFrame.refl (c : Component) : SameFrame c c := ⟨rfl, rfl, rfl, rfl⟩

theorem SameFrame.trans {c d e : Component} (h : SameFrame c d) (h' : SameFrame d e) :
    SameFrame c e :=
  ⟨h'.params.trans h.params, h'.module.trans h.module, h'.fields.trans h.fields,
    h'.blocks.trans h.blocks⟩

theorem settle_sameFrame (h : c.settle typescript i = .ok (c', bound)) : SameFrame c c' := by
  rcases settle_eq_ok h with ⟨rfl, -⟩ | ⟨-, -, -, ⟨-, -, rfl⟩ | ⟨-, -, -, -, rfl⟩⟩ <;>
    exact ⟨rfl, rfl, rfl, rfl⟩

theorem propagate_sameFrame (h : c.propagate typescript = .ok (c', n)) : SameFrame c c' :=
  propagate_keeps (P := SameFrame c) (fun h hc => hc.trans (settle_sameFrame h)) h (.refl c)

end Component

end Unhook
