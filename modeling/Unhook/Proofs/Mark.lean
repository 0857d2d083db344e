import Unhook.Proofs.Expansion

/-!
# Placeholders in texts

A text has a placeholder wherever the reserved text stands in it, followed by
digits and two lines at the foot. Placeholders are counted by where they begin.
As they begin with such a line and have none but a few characters, hardly any
place in what is written can be within one: a placeholder is in one of two joined
texts if the second one is `Clear`, that is, begins with another character.

* `Block.marks`: the numbers of the placeholders in a text;
* `Block.marks_append`: those of two texts that are joined;
* `Block.tally`: how often a placeholder stands in a text.
-/

namespace Unhook.Block

variable {c : Char}

open Text

/-- The number of the placeholder that a text begins with. -/
def markAt? (t : Text) : Option Nat := do
  let t ← after? reserved t
  let digits := t.takeWhile isDigit
  let _ ← after? "__" (t.drop digits.length)
  toNat? digits

/-- The numbers of the placeholders in a text, in their order. -/
def marks : Text → List Nat
  | [] => []
  | c :: t => (markAt? (c :: t)).toList ++ marks t

variable {a t u : Text} {i : Nat}

theorem markAt?_eq_some_iff :
    markAt? t = some i ↔ ∃ ds r, toNat? ds = some i ∧ t = mark ds ++ r := by
  constructor
  · intro h
    unfold markAt? at h
    obtain ⟨s, hs, h⟩ := Option.bind_eq_some_iff.1 h
    obtain ⟨r, hr, h⟩ := Option.bind_eq_some_iff.1 h
    obtain ⟨s', hs'⟩ := List.takeWhile_prefix isDigit (l := s)
    have hr := after?_eq_some_iff.1 hr
    refine ⟨s.takeWhile isDigit, r, h, ?_⟩
    generalize s.takeWhile isDigit = ds at hs' hr ⊢
    rw [← hs', List.drop_left] at hr
    rw [after?_eq_some_iff.1 hs, ← hs', hr, mark, List.append_assoc, List.append_assoc]
  · rintro ⟨ds, r, hi, rfl⟩
    have hstart : after? reserved (mark ds ++ r) = some (ds ++ ("__".toList ++ r)) := by
      rw [after?_eq_some_iff, mark, List.append_assoc, List.append_assoc]
    have hstop : ("__".toList ++ r).takeWhile isDigit = [] := rfl
    have htake : (ds ++ ("__".toList ++ r)).takeWhile isDigit = ds := by
      rw [List.takeWhile_append_of_pos (isDigit_of_toNat? hi), hstop, List.append_nil]
    have hend : after? "__" ((ds ++ ("__".toList ++ r)).drop ds.length) = some r := by
      rw [after?_eq_some_iff, List.drop_left]
    simp only [markAt?, hstart, Option.bind_eq_bind, Option.bind_some, htake, hend, hi]

/-- The placeholders of a text are those that occur in it. -/
theorem mem_marks : i ∈ marks t ↔ ∃ ds, toNat? ds = some i ∧ mark ds <:+: t := by
  have hne (ds : Text) : mark ds ≠ [] := by simp [mark]
  induction t with
  | nil => simp [marks, hne]
  | cons c t ih =>
    rw [marks, List.mem_append, Option.mem_toList, markAt?_eq_some_iff]
    refine (or_congr_right ih).trans ?_
    constructor
    · rintro (⟨ds, r, hi, hr⟩ | ⟨ds, hi, h⟩)
      · exact ⟨ds, hi, ⟨[], r, hr.symm⟩⟩
      · exact ⟨ds, hi, h.trans (List.suffix_cons c t).isInfix⟩
    · rintro ⟨ds, hi, h⟩
      rcases List.infix_cons_iff.1 h with ⟨r, hr⟩ | h
      · exact .inl ⟨ds, r, hi, hr.symm⟩
      · exact .inr ⟨ds, hi, h⟩

/-! ### Where placeholders cannot be -/

/-- Whether a character is one of those that placeholders are written with. -/
def inMark (c : Char) : Bool :=
  isDigit c || ['_', 'R', 'A', 'W', 'B', 'L', 'O', 'C', 'K'].contains c

theorem inMark_of_mem_mark {ds : Text} (h : toNat? ds = some i) (hc : c ∈ mark ds) :
    inMark c = true := by
  have hreserved : reserved.all inMark = true := by decide
  have hend : ("__".toList).all inMark = true := by decide
  rw [mark, List.mem_append, List.mem_append] at hc
  rcases hc with (hc | hc) | hc
  · exact List.all_eq_true.1 hreserved c hc
  · rw [inMark, isDigit_of_toNat? h c hc, Bool.true_or]
  · exact List.all_eq_true.1 hend c hc

/-- Whether no placeholder reaches into a text from what is before it, as it
    begins with a character that they have not. -/
def Clear (t : Text) : Prop := ∀ c ∈ t.head?, inMark c = false

@[simp] theorem clear_nil : Clear [] := fun _ hc => by cases hc

@[simp] theorem clear_cons : Clear (c :: t) ↔ inMark c = false := by
  simp [Clear]

/-- A text that may be left out is clear if what follows is. -/
@[simp] theorem Clear.append (ha : Clear a) (ht : Clear t) : Clear (a ++ t) := by
  cases a with
  | nil => exact ht
  | cons c a => exact ha

theorem Clear.append_left (ha : Clear a) (hne : a ≠ []) (t : Text) : Clear (a ++ t) := by
  obtain ⟨c, a, rfl⟩ := List.exists_cons_of_ne_nil hne
  exact ha

theorem markAt?_append (ha : a ≠ []) (ht : Clear t) : markAt? (a ++ t) = markAt? a := by
  refine Option.ext fun i => ?_
  rw [markAt?_eq_some_iff, markAt?_eq_some_iff]
  constructor
  · rintro ⟨ds, r, hi, h⟩
    rcases List.append_eq_append_iff.1 h with ⟨y, hy, ht'⟩ | ⟨y, hy, -⟩
    · cases y with
      | nil => exact ⟨ds, [], hi, by rw [hy]; simp⟩
      | cons c y =>
        -- The placeholder would go on with the first character of the second text.
        have hc : inMark c = false := ht c (by rw [ht']; rfl)
        rw [inMark_of_mem_mark hi (by rw [hy]; simp)] at hc
        cases hc
    · exact ⟨ds, y, hi, hy⟩
  · rintro ⟨ds, r, hi, rfl⟩
    exact ⟨ds, r ++ t, hi, by rw [List.append_assoc]⟩

/-- The placeholders of joined texts are those of the texts, if the second one is
    clear. -/
theorem marks_append (ht : Clear t) (a : Text) : marks (a ++ t) = marks a ++ marks t := by
  induction a with
  | nil => rfl
  | cons c a ih =>
    rw [List.cons_append, marks, marks, ih, List.append_assoc, ← List.cons_append,
      markAt?_append (List.cons_ne_nil c a) ht]

/-- No placeholder begins with any other character than the first one. -/
theorem marks_cons (hc : c ≠ '_') (t : Text) : marks (c :: t) = marks t := by
  have hnone : markAt? (c :: t) = none := by
    rw [← Option.not_isSome_iff_eq_none, Option.isSome_iff_exists]
    rintro ⟨i, hi⟩
    obtain ⟨ds, r, -, h⟩ := markAt?_eq_some_iff.1 hi
    exact hc (List.cons.inj h).1
  rw [marks, hnone]
  rfl

/-- Whether no placeholder reaches out of a text into what is after it, as it ends with a
    character that they have not. -/
def Sealed (t : Text) : Prop := ∀ c ∈ t.getLast?, inMark c = false

@[simp] theorem sealed_nil : Sealed [] := fun _ hc => by cases hc

@[simp] theorem sealed_concat : Sealed (t ++ [c]) ↔ inMark c = false := by
  simp [Sealed]

theorem Sealed.append_right (ht : Sealed t) (hne : t ≠ []) (a : Text) : Sealed (a ++ t) := by
  intro c hc
  rw [List.getLast?_append_of_ne_nil a hne] at hc
  exact ht c hc

/-- The placeholders of joined texts are those of the texts, if the first one is
    sealed. -/
theorem marks_append_of_sealed (ha : Sealed a) (t : Text) :
    marks (a ++ t) = marks a ++ marks t := by
  rcases List.eq_nil_or_concat a with rfl | ⟨a, c, rfl⟩
  · rfl
  · rw [List.concat_eq_append] at ha ⊢
    have hc : inMark c = false := sealed_concat.1 ha
    have hne : c ≠ '_' := by
      rintro rfl
      cases hc
    rw [List.append_assoc, List.singleton_append, marks_append (clear_cons.2 hc), marks_cons hne,
      marks_append (clear_cons.2 hc) a, marks_cons hne]
    simp [marks]

/-- A text without lines has no placeholders, and does not begin one. -/
theorem marks_append_of_not_mem (ha : '_' ∉ a) (t : Text) : marks (a ++ t) = marks t := by
  induction a with
  | nil => rfl
  | cons c a ih =>
    rw [List.mem_cons, not_or] at ha
    rw [List.cons_append, marks_cons (Ne.symm ha.1), ih ha.2]

/-- Nor does one begin with a line that no other line follows. -/
theorem marks_line (ht : t.head? ≠ some '_') : marks ('_' :: t) = marks t := by
  have hnone : markAt? ('_' :: t) = none := by
    rw [← Option.not_isSome_iff_eq_none, Option.isSome_iff_exists]
    rintro ⟨i, hi⟩
    obtain ⟨ds, r, -, h⟩ := markAt?_eq_some_iff.1 hi
    exact ht (by rw [(List.cons.inj h).2]; rfl)
  rw [marks, hnone]
  rfl

/-- A placeholder has no other one in it. -/
theorem marks_mark {ds : Text} (h : toNat? ds = some i) : marks (mark ds) = [i] := by
  have hhead : markAt? (mark ds) = some i :=
    markAt?_eq_some_iff.2 ⟨ds, [], h, (List.append_nil _).symm⟩
  have hdigit (c : Char) (hc : c ∈ ds) : c ≠ '_' := by
    rintro rfl
    cases isDigit_of_toNat? h '_' hc
  have hend : marks (ds ++ "__".toList) = [] := by
    clear h hhead
    induction ds with
    | nil => decide
    | cons c ds ih =>
      rw [List.cons_append, marks_cons (hdigit c List.mem_cons_self),
        ih fun d hd => hdigit d (List.mem_cons_of_mem _ hd)]
  have hfollowed : (ds ++ "__".toList).head? ≠ some '_' := by
    cases ds with
    | nil => cases h
    | cons c ds => exact fun hc => hdigit c List.mem_cons_self (Option.some.inj hc)
  have htext : mark ds = '_' :: ("_RAW_BLOCK_".toList ++ (ds ++ "__".toList)) := by
    rw [mark, List.append_assoc]
    rfl
  rw [htext] at hhead ⊢
  rw [marks, hhead]
  -- Of the lines within it, none is followed by another one.
  simp only [String.reduceToList, List.cons_append, List.nil_append]
  rw [marks_line (by simp), marks_cons (by decide), marks_cons (by decide), marks_cons (by decide),
    marks_line (by simp), marks_cons (by decide), marks_cons (by decide), marks_cons (by decide),
    marks_cons (by decide), marks_cons (by decide), marks_line (by simpa using hfollowed)]
  simpa using hend

/-! ### Counting placeholders -/

/-- How often a placeholder stands in a text. -/
def tally (i : Nat) (t : Text) : Nat := (marks t).count i

@[simp] theorem tally_nil : tally i [] = 0 := rfl

@[simp] theorem tally_append (ht : Clear t) : tally i (a ++ t) = tally i a + tally i t := by
  rw [tally, marks_append ht, List.count_append, tally, tally]

@[simp] theorem tally_cons (hc : c ≠ '_') : tally i (c :: t) = tally i t := by
  rw [tally, marks_cons hc, tally]

@[simp] theorem tally_append_of_sealed (ha : Sealed a) :
    tally i (a ++ t) = tally i a + tally i t := by
  rw [tally, marks_append_of_sealed ha, List.count_append, tally, tally]

theorem tally_append_of_not_mem (ha : '_' ∉ a) (t : Text) : tally i (a ++ t) = tally i t := by
  rw [tally, marks_append_of_not_mem ha, tally]

/-- Joined texts have the placeholders of each. -/
theorem tally_add_le (a t : Text) : tally i a + tally i t ≤ tally i (a ++ t) := by
  induction a with
  | nil => simp
  | cons c a ih =>
    have hstart : (markAt? (c :: a)).toList.count i ≤ (markAt? (c :: (a ++ t))).toList.count i := by
      cases h : markAt? (c :: a) with
      | none => simp
      | some j =>
        obtain ⟨ds, r, hj, hr⟩ := markAt?_eq_some_iff.1 h
        have hr : c :: (a ++ t) = mark ds ++ (r ++ t) := by rw [← List.append_assoc, ← hr]; rfl
        exact Nat.le_of_eq (by rw [markAt?_eq_some_iff.2 ⟨ds, r ++ t, hj, hr⟩])
    simp only [tally, List.cons_append, marks, List.count_append] at ih ⊢
    omega

theorem tally_le_of_prefix (h : a <+: t) : tally i a ≤ tally i t := by
  obtain ⟨r, rfl⟩ := h
  exact Nat.le_trans (Nat.le_add_right _ _) (tally_add_le a r)

/-- Texts with a clear separator between them have the placeholders of each. -/
theorem marks_join {sep : Text} (hclear : Clear sep) (hne : sep ≠ []) (hsep : '_' ∉ sep)
    (ts : List Text) : marks (join sep ts) = ts.flatMap marks := by
  fun_induction join sep ts with
  | case1 => rfl
  | case2 t => simp
  | case3 t ts _ ih =>
    rw [List.append_assoc, marks_append (hclear.append_left hne _), marks_append_of_not_mem hsep, ih,
      List.flatMap_cons]

/-- Texts that are clear have, one after the other, the placeholders of each. -/
theorem marks_flatten {ts : List Text} (h : ∀ t ∈ ts, Clear t) :
    Clear ts.flatten ∧ marks ts.flatten = ts.flatMap marks := by
  induction ts with
  | nil => exact ⟨clear_nil, rfl⟩
  | cons t ts ih =>
    obtain ⟨hclear, hmarks⟩ := ih fun u hu => h u (List.mem_cons_of_mem _ hu)
    rw [List.flatten_cons, marks_append hclear, hmarks, List.flatMap_cons]
    exact ⟨(h t List.mem_cons_self).append hclear, rfl⟩

end Unhook.Block
