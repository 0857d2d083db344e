import Unhook.Proofs.Opening
import Unhook.Proofs.Spelling

/-!
# Placeholders in what is written

What a separated tree is written as has no more placeholders than the tree: no part
is written twice, and none comes up where two texts meet. This is shown rule by rule.
What is known of the pieces that a rule is given is that they are *good*: their texts
have no more placeholders than their nodes, begin and end with the signs that their
kinds say, and their parts are good.

* `Piece.Good`: what is known of pieces.
-/

namespace Unhook.Printer

open Block

variable {i : Nat}

/-! ### Good pieces -/

/-- How often a placeholder stands in the node of a piece. -/
def Piece.load (i : Nat) (q : Piece) : Nat := q.node.load i

/-- How often a placeholder stands in the nodes of some pieces. -/
def loads (i : Nat) : List Piece → Nat
  | [] => 0
  | q :: qs => q.load i + loads i qs

@[simp] theorem loads_nil : loads i [] = 0 := rfl

@[simp] theorem loads_cons (q : Piece) (qs : List Piece) :
    loads i (q :: qs) = q.load i + loads i qs := rfl

@[simp] theorem loads_append (qs rs : List Piece) :
    loads i (qs ++ rs) = loads i qs + loads i rs := by
  induction qs with
  | nil => simp
  | cons q qs ih => rw [List.cons_append, loads_cons, loads_cons, ih, Nat.add_assoc]

theorem loads_map_node (qs : List Piece) : Node.loads i (qs.map Piece.node) = loads i qs := by
  induction qs with
  | nil => rfl
  | cons q qs ih => rw [List.map_cons, Node.loads_cons, ih, loads_cons, Piece.load]

theorem loads_filter_le (f : Piece → Bool) (qs : List Piece) :
    loads i (qs.filter f) ≤ loads i qs := by
  induction qs with
  | nil => exact Nat.le_refl _
  | cons q qs ih =>
    rw [List.filter_cons]
    split
    · exact Nat.add_le_add_left ih _
    · exact Nat.le_trans ih (Nat.le_add_left _ _)

namespace Piece

/-- A text has no more placeholders than its node, and the signs that the kind of the
    node says. -/
structure Fits (i : Nat) (n : Node) (text : Place → Text) : Prop where
  load : ∀ p, tally i (text p) ≤ n.load i
  clear : n.kind.opensApart = true → ∀ p, Clear (text p)
  closed : n.kind.endsApart = true → ∀ p, Sealed (text p)
  ne_nil : n.kind.isEnclosed = true → ∀ p, text p ≠ []

/-- A piece whose text fits its node, and so do the texts of its parts. -/
inductive Good (i : Nat) : Piece → Prop
  | mk {n : Node} {text : Place → Text} {qs : List Piece} (node : n.parts = qs.map Piece.node)
    (separates : n.kind.separates (n.parts.map Node.kind) = true) (fits : Fits i n text)
    (parts : ∀ q ∈ qs, Good i q) : Good i (.mk n text qs)

namespace Good

variable {q : Piece}

theorem fits (h : q.Good i) : Fits i q.node q.text := by
  cases h with
  | mk _ _ fits => exact fits

theorem part (h : q.Good i) {r : Piece} (hr : r ∈ q.parts) : r.Good i := by
  cases h with
  | mk _ _ _ parts => exact parts r hr

theorem separates (h : q.Good i) : q.kind.separates (q.parts.map Piece.kind) = true := by
  cases h with
  | mk node separates =>
    rw [node, List.map_map] at separates
    exact separates

theorem load_eq (h : q.Good i) : q.load i = q.kind.load i + loads i q.parts := by
  cases h with
  | @mk n text qs node =>
    obtain ⟨k, s, ps⟩ := n
    obtain rfl : ps = qs.map Piece.node := node
    exact (Node.load_mk _ _ _).trans (congrArg (k.load i + ·) (loads_map_node qs))

theorem tally_le (h : q.Good i) (p : Place) : tally i (q.text p) ≤ q.load i := h.fits.load p

theorem clear (h : q.Good i) (hk : q.kind.opensApart = true) (p : Place) : Clear (q.text p) :=
  h.fits.clear hk p

theorem closed (h : q.Good i) (hk : q.kind.endsApart = true) (p : Place) : Sealed (q.text p) :=
  h.fits.closed hk p

/-- The parts have no more placeholders than the piece. -/
theorem loads_parts_le (h : q.Good i) : loads i q.parts ≤ q.load i :=
  h.load_eq ▸ Nat.le_add_left _ _

end Good

end Piece

/-! ### Texts -/

variable {t u : Text} {q : Piece} {qs : List Piece} {p : Place}

@[simp] theorem given_true : given true t = t := rfl

@[simp] theorem given_false : given false t = [] := rfl

@[simp] theorem tally_given_append (b : Bool) (ht : '_' ∉ t) :
    tally i (given b t ++ u) = tally i u := by
  cases b
  · rfl
  · exact tally_append_of_not_mem ht u

@[simp] theorem tally_given (b : Bool) (ht : '_' ∉ t) : tally i (given b t) = 0 := by
  rw [← List.append_nil (given b t), tally_given_append b ht, tally_nil]

@[simp] theorem clear_given {b : Bool} : Clear (given b t) ↔ (b = true → Clear t) := by
  cases b <;> simp

@[simp] theorem clear_given_append {b : Bool} :
    Clear (given b t ++ u) ↔ (b = true → Clear (t ++ u)) ∧ (b = false → Clear u) := by
  cases b <;> simp

theorem not_mem_tabs (n : Nat) : '_' ∉ tabs n := by
  simp [tabs]

@[simp] theorem tally_tabs_append (n : Nat) : tally i (tabs n ++ u) = tally i u :=
  tally_append_of_not_mem (not_mem_tabs n) u

@[simp] theorem tally_tabs (n : Nat) : tally i (tabs n) = 0 := by
  rw [← List.append_nil (tabs n), tally_tabs_append, tally_nil]

theorem clear_tabs_succ (n : Nat) : Clear (tabs (n + 1) ++ u) := by
  simp +decide [tabs, List.replicate_succ]

@[simp] theorem clear_tabs (n : Nat) : Clear (tabs n) := by
  cases n with
  | zero => exact clear_nil
  | succ n => exact List.append_nil (tabs (n + 1)) ▸ clear_tabs_succ n

/-- The place within parentheses, if there are some. -/
def Place.inside (needed : Bool) (p : Place) : Place :=
  if needed then { p with opening := .nothing } else p

@[simp] theorem tally_wrap (needed : Bool) (p : Place) (body : Place → Text) :
    tally i (wrap needed p body) = tally i (body (p.inside needed)) := by
  unfold wrap Place.inside
  split
  · simp +decide
  · rfl

@[simp] theorem tally_ifPresent (ht : '_' ∉ t) (p : Place) :
    tally i (q.ifPresent t p) = if q.isAbsent then 0 else tally i (q.text p) := by
  unfold Piece.ifPresent
  split
  · rfl
  · exact tally_append_of_not_mem ht _

@[simp] theorem clear_ifPresent :
    Clear (q.ifPresent t p) ↔ (q.isAbsent = false → Clear (t ++ q.text p)) := by
  unfold Piece.ifPresent
  split <;> simp_all

@[simp] theorem clear_ifPresent_append : Clear (q.ifPresent t p ++ u) ↔
    (q.isAbsent = false → Clear (t ++ (q.text p ++ u))) ∧ (q.isAbsent = true → Clear u) := by
  unfold Piece.ifPresent
  split <;> simp_all

/-- A text that ends with a sign and has no placeholders can be left out of the count. -/
theorem tally_append_of_marks_nil {c : Char} (hc : inMark c = false) (ht : marks (t ++ [c]) = []) :
    tally i (t ++ [c] ++ u) = tally i u := by
  rw [tally_append_of_sealed (sealed_concat.2 hc), tally, ht, List.count_nil, Nat.zero_add]

@[simp] theorem tally_inertNote : tally i inertNote = 0 := rfl

@[simp] theorem tally_pureNote : tally i pureNote = 0 := rfl

@[simp] theorem tally_pureNote_append : tally i (pureNote ++ u) = tally i u :=
  tally_append_of_marks_nil (t := "/* @__PURE__ */".toList) (c := ' ') rfl rfl

theorem tallies_map_le {f : Piece → Text} (h : ∀ q ∈ qs, tally i (f q) ≤ q.load i) :
    tallies i (qs.map f) ≤ loads i qs := by
  induction qs with
  | nil => exact Nat.le_refl _
  | cons q qs ih =>
    rw [List.forall_mem_cons] at h
    rw [List.map_cons, tallies_cons, loads_cons]
    exact Nat.add_le_add h.1 (ih h.2)

theorem tally_commas_le (hqs : ∀ q ∈ qs, q.Good i) (p : Place) :
    tally i (commas qs p) ≤ loads i qs := by
  rw [commas, tally_join (by simp +decide) (by simp) (by simp)]
  exact tallies_map_le fun q hq => (hqs q hq).tally_le p

/-- Words in the order of a list that has no lines. -/
theorem tally_ordered_append {order : List Text} (h : order.all (!·.contains '_') = true)
    (ws : List Text) : tally i (ordered order ws ++ u) = tally i u := by
  refine tally_append_of_not_mem ?_ u
  simp only [ordered, words, List.mem_flatMap, List.mem_filter, not_exists, not_and]
  intro w hw
  have hline := List.all_eq_true.1 h w hw.1
  simpa using hline

/-- Items that take a line each have the placeholders of each. -/
theorem tally_itemLines (items : List (Place → Text)) (p : Place) :
    tally i (itemLines items p) = tallies i (items.map fun l => l p.deeper) := by
  have hitems : tallies i (items.map fun l => tabs (p.indent + 1) ++ l p.deeper) =
      tallies i (items.map fun l => l p.deeper) := by
    induction items with
    | nil => rfl
    | cons l ls ih =>
      rw [List.map_cons, List.map_cons, tallies_cons, tallies_cons, ih, tally_tabs_append]
  rw [← hitems, ← tally_join (s := ",\n".toList) (by simp +decide) (by simp) (by simp)]
  simp +decide [itemLines]

theorem tally_itemLines_le {f : Piece → Place → Text}
    (h : ∀ q ∈ qs, ∀ p, tally i (f q p) ≤ q.load i) (p : Place) :
    tally i (itemLines (qs.map f) p) ≤ loads i qs := by
  rw [tally_itemLines, List.map_map]
  exact tallies_map_le fun q hq => h q hq _

end Unhook.Printer
