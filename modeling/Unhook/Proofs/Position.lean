import Mathlib.Data.List.Induction
import Unhook.Text.Position

/-!
# Positions and offsets

A position says how far a text has been read: past some whole lines, and past
some characters of the next one. Reading on from there comes to the rest of that
line, so a position and what is left of the text determine each other.

* `Text.IsBoundary`: an offset at which no character is cut;
* `Text.upTo`: what is read of a text when a position is reached;
* `Text.exists_lines`: how the lines of a text lie around the position that is
  reached after a part of it;
* `Text.position_exact`: positions and boundaries correspond, in order.
-/

namespace Unhook

/-- A position that comes before another one: on an earlier line, or in an
    earlier column of the same line. -/
def Position.Before (p q : Position) : Prop :=
  p.line < q.line ∨ p.line = q.line ∧ p.column < q.column

theorem Position.Before.asymm {p q : Position} (h : p.Before q) : ¬q.Before p := by
  unfold Before at *
  omega

theorem Position.Before.ne {p q : Position} (h : p.Before q) : p ≠ q := by
  rintro rfl
  exact h.asymm h

namespace Text

variable {t a b source l : Text} {n offset : Nat} {ls : List Text}

/-! ### Bytes -/

@[simp] theorem byteLength_append (a b : Text) :
    (a ++ b).byteLength = a.byteLength + b.byteLength := by
  induction a with
  | nil => exact (Nat.zero_add _).symm
  | cons c a ih => rw [List.cons_append, byteLength, byteLength, ih, Nat.add_assoc]

theorem byteLength_pos {t : Text} (h : t ≠ []) : 0 < t.byteLength := by
  cases t with
  | nil => exact absurd rfl h
  | cons c t => exact Nat.lt_of_lt_of_le c.utf8Size_pos (Nat.le_add_right _ _)

theorem length_le_byteLength (t : Text) : t.length ≤ t.byteLength := by
  induction t with
  | nil => exact Nat.le_refl 0
  | cons c t ih =>
    rw [List.length_cons, byteLength]
    have := c.utf8Size_pos
    omega

theorem splitBytes_eq_some_iff : splitBytes n t = some (a, b) ↔ t = a ++ b ∧ a.byteLength = n := by
  fun_induction splitBytes n t generalizing a with
  | case1 t =>
    constructor
    · intro h
      cases h
      exact ⟨rfl, rfl⟩
    · rintro ⟨rfl, ha⟩
      obtain rfl : a = [] := by_contra fun hne => Nat.ne_of_gt (byteLength_pos hne) ha
      rfl
  | case2 n =>
    refine ⟨fun h => (by cases h), fun h => ?_⟩
    obtain ⟨rfl, -⟩ := List.append_eq_nil_iff.1 h.1.symm
    cases h.2
  | case3 n c t hc ih =>
    rw [Option.map_eq_some_iff]
    constructor
    · rintro ⟨⟨a', b'⟩, hsplit, h⟩
      cases h
      obtain ⟨rfl, hlength⟩ := ih.1 hsplit
      exact ⟨rfl, by rw [byteLength]; omega⟩
    · rintro ⟨h, hlength⟩
      cases a with
      | nil => cases hlength
      | cons d a =>
        obtain ⟨rfl, rfl⟩ := List.cons.inj h
        rw [byteLength] at hlength
        exact ⟨(a, b), ih.2 ⟨rfl, by omega⟩, rfl⟩
  | case4 n c t hc =>
    refine ⟨fun h => (by cases h), fun h => ?_⟩
    cases a with
    | nil => cases h.2
    | cons d a =>
      obtain ⟨rfl, -⟩ := List.cons.inj h.1
      have hlength := h.2
      rw [byteLength] at hlength
      omega

/-! ### Boundaries -/

/-- An offset at which a character of the text begins, or at which the text ends. -/
def IsBoundary (t : Text) (n : Nat) : Prop := ∃ a : Text, a <+: t ∧ a.byteLength = n

theorem isBoundary_iff : t.IsBoundary n ↔ (splitBytes n t).isSome = true := by
  rw [Option.isSome_iff_exists]
  constructor
  · rintro ⟨a, ⟨b, rfl⟩, ha⟩
    exact ⟨(a, b), splitBytes_eq_some_iff.2 ⟨rfl, ha⟩⟩
  · rintro ⟨⟨a, b⟩, h⟩
    obtain ⟨rfl, ha⟩ := splitBytes_eq_some_iff.1 h
    exact ⟨a, List.prefix_append a b, ha⟩

instance (t : Text) (n : Nat) : Decidable (t.IsBoundary n) :=
  decidable_of_iff _ isBoundary_iff.symm

theorem before_of_prefix (h : a <+: t) : before t a.byteLength = a := by
  obtain ⟨b, rfl⟩ := h
  rw [before, splitBytes_eq_some_iff.2 ⟨rfl, rfl⟩]

theorem before_of_boundary (h : source.IsBoundary (min offset source.byteLength)) :
    before source offset <+: source ∧
      (before source offset).byteLength = min offset source.byteLength := by
  obtain ⟨a, ha, hlength⟩ := h
  by_cases hoffset : offset ≤ source.byteLength
  · rw [Nat.min_eq_left hoffset] at hlength ⊢
    rw [← hlength, before_of_prefix ha]
    exact ⟨ha, rfl⟩
  · -- Past the end all of the text is read.
    have hnone : splitBytes offset source = none := by
      refine Option.eq_none_iff_forall_ne_some.2 ?_
      rintro ⟨a, b⟩ hsplit
      obtain ⟨rfl, rfl⟩ := splitBytes_eq_some_iff.1 hsplit
      rw [byteLength_append] at hoffset
      omega
    have hbefore : before source offset = source := by rw [before, hnone]
    rw [hbefore]
    exact ⟨List.prefix_refl source, by omega⟩

theorem before_of_not_boundary (h : ¬source.IsBoundary (min offset source.byteLength)) :
    before source offset = source := by
  unfold before
  split
  · next a b hsplit =>
    obtain ⟨rfl, rfl⟩ := splitBytes_eq_some_iff.1 hsplit
    refine absurd ⟨a, List.prefix_append a b, ?_⟩ h
    rw [byteLength_append]
    omega
  · rfl

theorem isPrefix_before (source : Text) (offset : Nat) : before source offset <+: source := by
  by_cases h : source.IsBoundary (min offset source.byteLength)
  · exact (before_of_boundary h).1
  · exact (before_of_not_boundary h).symm ▸ List.prefix_refl source

/-! ### Lines -/

theorem splitLines_ne_nil (t : Text) : splitLines t ≠ [] := by
  cases t with
  | nil => simp [splitLines]
  | cons c t =>
    rw [splitLines]
    split
    · simp
    · split <;> simp

theorem splitLines_feed (t : Text) : splitLines ('\n' :: t) = [] :: splitLines t := by
  rw [splitLines, if_pos rfl]

theorem splitLines_cons {c : Char} (hc : c ≠ '\n') {t l : Text}
    (h : splitLines t = l :: ls) : splitLines (c :: t) = (c :: l) :: ls := by
  rw [splitLines, if_neg hc, h]

/-- The first line of a text, if it has another one. -/
theorem splitLines_line (hl : '\n' ∉ l) (t : Text) :
    splitLines (l ++ '\n' :: t) = l :: splitLines t := by
  induction l with
  | nil => exact splitLines_feed t
  | cons c l ih =>
    rw [List.mem_cons, not_or] at hl
    exact splitLines_cons (Ne.symm hl.1) (ih hl.2)

theorem not_mem_of_mem_splitLines (h : l ∈ splitLines t) : '\n' ∉ l := by
  induction t generalizing l with
  | nil =>
    obtain rfl := List.mem_singleton.1 h
    exact List.not_mem_nil
  | cons c t ih =>
    by_cases hc : c = '\n'
    · subst hc
      rw [splitLines_feed] at h
      rcases List.mem_cons.1 h with rfl | h
      · exact List.not_mem_nil
      · exact ih h
    · obtain ⟨m, ms, ht⟩ := List.exists_cons_of_ne_nil (splitLines_ne_nil t)
      rw [splitLines_cons hc ht] at h
      rw [ht] at ih
      rcases List.mem_cons.1 h with rfl | h
      · rw [List.mem_cons, not_or]
        exact ⟨Ne.symm hc, ih List.mem_cons_self⟩
      · exact ih (List.mem_cons_of_mem _ h)

/-- Lines of a text, each with the feed at its end. -/
def unlines (ls : List Text) : Text := ls.flatMap (· ++ ['\n'])

@[simp] theorem unlines_cons (l : Text) (ls : List Text) :
    unlines (l :: ls) = l ++ '\n' :: unlines ls := by
  simp [unlines]

theorem splitLines_unlines (hls : ∀ l ∈ ls, '\n' ∉ l) (t : Text) :
    splitLines (unlines ls ++ t) = ls ++ splitLines t := by
  induction ls with
  | nil => rfl
  | cons l ls ih =>
    rw [List.forall_mem_cons] at hls
    rw [unlines_cons, List.append_assoc, List.cons_append, splitLines_line hls.1, ih hls.2,
      List.cons_append]

/-- A text is made of some lines, and of what follows the last feed. -/
theorem exists_eq_unlines (t : Text) : ∃ ls l,
    (∀ m ∈ ls, '\n' ∉ m) ∧ '\n' ∉ l ∧ t = unlines ls ++ l := by
  induction t with
  | nil => exact ⟨[], [], by simp, by simp, rfl⟩
  | cons c t ih =>
    obtain ⟨ls, l, hls, hl, rfl⟩ := ih
    by_cases hc : c = '\n'
    · refine ⟨[] :: ls, l, List.forall_mem_cons.2 ⟨List.not_mem_nil, hls⟩, hl, ?_⟩
      rw [hc, unlines_cons]
      rfl
    · have hcons {m : Text} (hm : '\n' ∉ m) : '\n' ∉ c :: m := by
        rw [List.mem_cons, not_or]
        exact ⟨Ne.symm hc, hm⟩
      cases ls with
      | nil => exact ⟨[], c :: l, hls, hcons hl, rfl⟩
      | cons m ls =>
        rw [List.forall_mem_cons] at hls
        refine ⟨(c :: m) :: ls, l, List.forall_mem_cons.2 ⟨hcons hls.1, hls.2⟩, hl, ?_⟩
        rw [unlines_cons, unlines_cons]
        rfl

/-- The first line of a text goes up to its first feed. -/
theorem exists_splitLines_eq (hl : '\n' ∉ l) (t : Text) :
    ∃ ls, splitLines (l ++ t) = (l ++ t.takeWhile (· != '\n')) :: ls := by
  induction l with
  | nil =>
    induction t with
    | nil => exact ⟨[], rfl⟩
    | cons c t ih =>
      obtain ⟨ls, hls⟩ := ih
      by_cases hc : c = '\n'
      · subst hc
        exact ⟨splitLines t, splitLines_feed t⟩
      · exact ⟨ls, (splitLines_cons hc hls).trans (by simp [hc])⟩
  | cons c l ih =>
    rw [List.mem_cons, not_or] at hl
    obtain ⟨ls, hls⟩ := ih hl.2
    exact ⟨ls, splitLines_cons (Ne.symm hl.1) hls⟩

/-! ### Positions -/

/-- Reading more of a line moves on by as many columns. -/
theorem positionAfter_append (hl : '\n' ∉ l) (t : Text) :
    positionAfter (t ++ l) = ⟨(positionAfter t).line, (positionAfter t).column + l.length⟩ := by
  have hall : ∀ c ∈ l.reverse, (c != '\n') = true := by
    intro c hc
    rw [bne_iff_ne]
    rintro rfl
    exact hl (List.mem_reverse.1 hc)
  simp only [positionAfter, List.count_append, List.count_eq_zero.2 hl, List.reverse_append,
    List.takeWhile_append_of_pos hall, List.length_append, List.length_reverse, Nat.add_zero]
  rw [Nat.add_comm l.length, Nat.add_right_comm]

/-- Reading a feed moves on to the next line. -/
theorem positionAfter_feed (t : Text) :
    positionAfter (t ++ ['\n']) = ⟨(positionAfter t).line + 1, 1⟩ := by
  simp [positionAfter]

theorem positionAfter_unlines (hls : ∀ m ∈ ls, '\n' ∉ m)
    (hl : '\n' ∉ l) : positionAfter (unlines ls ++ l) = ⟨ls.length + 1, l.length + 1⟩ := by
  induction ls using List.reverseRecOn generalizing l with
  | nil =>
    rw [positionAfter_append hl, Nat.add_comm l.length]
    rfl
  | append_singleton ls m ih =>
    rw [List.forall_mem_append, List.forall_mem_singleton] at hls
    have hm := ih hls.1 hls.2
    have hunlines : unlines (ls ++ [m]) = (unlines ls ++ m) ++ ['\n'] := by simp [unlines]
    rw [positionAfter_append hl, hunlines, positionAfter_feed, hm, List.length_append,
      List.length_singleton, Nat.add_comm l.length]

/-- How the lines of a text lie around the position that is reached after a part of it. -/
theorem exists_lines (a b : Text) : ∃ above l below,
    splitLines (a ++ b) = above ++ (l ++ b.takeWhile (· != '\n')) :: below ∧
      a = unlines above ++ l ∧ positionAfter a = ⟨above.length + 1, l.length + 1⟩ := by
  obtain ⟨above, l, habove, hl, rfl⟩ := exists_eq_unlines a
  obtain ⟨below, hbelow⟩ := exists_splitLines_eq hl b
  refine ⟨above, l, below, ?_, rfl, positionAfter_unlines habove hl⟩
  rw [List.append_assoc, splitLines_unlines habove, hbelow]

/-- Reading on comes to a later position. -/
theorem before_positionAfter_append (a : Text) (hb : b ≠ []) :
    (positionAfter a).Before (positionAfter (a ++ b)) := by
  by_cases hfeed : '\n' ∈ b
  · refine .inl ?_
    have := List.count_pos_iff.2 hfeed
    simp only [positionAfter, List.count_append]
    omega
  · have := List.length_pos_iff.2 hb
    rw [positionAfter_append hfeed]
    exact .inr ⟨rfl, by dsimp only; omega⟩

/-- Of two parts of a text that both stand at its beginning, the shorter one ends earlier. -/
theorem before_of_byteLength_lt (ha : a <+: t) (hb : b <+: t) (h : a.byteLength < b.byteLength) :
    (positionAfter a).Before (positionAfter b) := by
  rcases List.prefix_or_prefix_of_prefix ha hb with ⟨r, rfl⟩ | ⟨r, rfl⟩
  · refine before_positionAfter_append a ?_
    rintro rfl
    simp at h
  · rw [byteLength_append] at h
    omega

/-- A position in a text: on one of its lines, at one of the characters of that line or behind the
    last one. -/
structure Has (t : Text) (p : Position) : Prop where
  line_pos : 1 ≤ p.line
  column_pos : 1 ≤ p.column
  exists_line : ∃ l, t.splitLines[p.line - 1]? = some l ∧ p.column - 1 ≤ l.length

theorem Has.line_le {p : Position} (h : t.Has p) : p.line ≤ t.splitLines.length := by
  obtain ⟨l, hl, -⟩ := h.exists_line
  have := (List.getElem?_eq_some_iff.1 hl).1
  have := h.line_pos
  omega

/-- What is read of a text when a position is reached: whole lines, and characters of the next
    one. -/
def upTo (t : Text) (p : Position) : Text :=
  unlines (t.splitLines.take (p.line - 1)) ++
    ((t.splitLines[p.line - 1]?).getD []).take (p.column - 1)

/-- What is read when a position is reached is what was read to reach it. -/
theorem has_positionAfter (h : a <+: t) :
    t.Has (positionAfter a) ∧ t.upTo (positionAfter a) = a := by
  obtain ⟨b, rfl⟩ := h
  obtain ⟨above, l, below, hlines, ha, hposition⟩ := exists_lines a b
  rw [hposition]
  refine ⟨⟨Nat.le_add_left _ _, Nat.le_add_left _ _, l ++ b.takeWhile (· != '\n'), ?_, ?_⟩, ?_⟩
  · simp [hlines]
  · simp
  · rw [upTo, hlines, ha]
    simp

theorem has_position (source : Text) (offset : Nat) : source.Has (source.position offset) :=
  (has_positionAfter (isPrefix_before source offset)).1

/-- A position has no larger numbers than a text has bytes, and one more. -/
theorem position_le (source : Text) (offset : Nat) :
    (source.position offset).line ≤ source.byteLength + 1 ∧
      (source.position offset).column ≤ source.byteLength + 1 := by
  have hlength : (before source offset).length ≤ source.byteLength :=
    Nat.le_trans (isPrefix_before source offset).length_le (length_le_byteLength source)
  constructor
  · exact Nat.succ_le_succ (Nat.le_trans List.count_le_length hlength)
  · refine Nat.succ_le_succ (Nat.le_trans ?_ hlength)
    exact Nat.le_trans (List.takeWhile_prefix _).length_le (Nat.le_of_eq List.length_reverse)

/-- The position of an offset lies in the text, and its numbers fit into 32 bits. If the offset
    (or the end of the text, if that comes before) is a boundary, the bytes up to the position
    are as many as it says, and other boundaries have other positions, in the same order. An
    offset within a character has the position of the end of the text. -/
theorem position_exact (hsource : source.byteLength < UInt32.size - 1) (offset : Nat) :
    (source.Has (source.position offset) ∧
      (source.position offset).line ≤ source.splitLines.length ∧
      (source.position offset).line < UInt32.size ∧
      (source.position offset).column < UInt32.size) ∧
    (source.IsBoundary (min offset source.byteLength) →
      (source.upTo (source.position offset)).byteLength = min offset source.byteLength ∧
      ∀ offset', source.IsBoundary (min offset' source.byteLength) →
        (source.position offset = source.position offset' ↔
          min offset source.byteLength = min offset' source.byteLength) ∧
        ((source.position offset).Before (source.position offset') ↔
          min offset source.byteLength < min offset' source.byteLength)) ∧
    (¬source.IsBoundary (min offset source.byteLength) →
      source.position offset = source.position source.byteLength) := by
  have hhas := has_position source offset
  obtain ⟨hline, hcolumn⟩ := position_le source offset
  refine ⟨⟨hhas, hhas.line_le, by omega, by omega⟩, fun h => ?_, fun h => ?_⟩
  · obtain ⟨hstart, hlength⟩ := before_of_boundary h
    refine ⟨?_, fun offset' h' => ?_⟩
    · rw [position, (has_positionAfter hstart).2, hlength]
    · obtain ⟨hstart', hlength'⟩ := before_of_boundary h'
      rw [← hlength, ← hlength']
      -- Whichever of the two is the shorter one has the earlier position.
      rcases Nat.lt_trichotomy (before source offset).byteLength (before source offset').byteLength with
        hlt | heq | hgt
      · have hbefore := before_of_byteLength_lt hstart hstart' hlt
        exact ⟨⟨fun h => absurd h hbefore.ne, fun h => absurd h (Nat.ne_of_lt hlt)⟩, fun _ => hlt, fun _ => hbefore⟩
      · have hsame : before source offset = before source offset' := by
          rw [← before_of_prefix hstart, heq, before_of_prefix hstart']
        have hsame : source.position offset = source.position offset' := congrArg positionAfter hsame
        refine ⟨⟨fun _ => heq, fun _ => hsame⟩, fun h => absurd hsame h.ne, fun h => ?_⟩
        exact absurd heq (Nat.ne_of_lt h)
      · have hbefore := before_of_byteLength_lt hstart' hstart hgt
        exact ⟨⟨fun h => absurd h.symm hbefore.ne, fun h => absurd h.symm (Nat.ne_of_lt hgt)⟩,
          fun h => absurd h hbefore.asymm, fun h => absurd h (Nat.lt_asymm hgt)⟩
  · rw [position, position, before_of_not_boundary h, before_of_prefix (List.prefix_refl source)]

/-- A line with a character of two bytes, and another line. -/
def accented : Text := ['é', '\n', 'b']

theorem accented_positions :
    (accented.byteLength < UInt32.size - 1 ∧ accented.IsBoundary (min 3 accented.byteLength) ∧
      accented.IsBoundary (min 9 accented.byteLength) ∧
      ¬accented.IsBoundary (min 1 accented.byteLength)) ∧
    accented.position 3 = ⟨2, 1⟩ ∧
    (accented.upTo (accented.position 3)).byteLength = min 3 accented.byteLength ∧
    (accented.position 3).Before (accented.position 9) ∧
    accented.position 1 = accented.position accented.byteLength := by
  have hsource : accented.byteLength < UInt32.size - 1 := by decide
  have hthree : accented.IsBoundary (min 3 accented.byteLength) := by decide
  have hnine : accented.IsBoundary (min 9 accented.byteLength) := by decide
  have hone : ¬accented.IsBoundary (min 1 accented.byteLength) := by decide
  obtain ⟨-, hexact, -⟩ := position_exact hsource 3
  obtain ⟨-, -, hinside⟩ := position_exact hsource 1
  obtain ⟨hbytes, horder⟩ := hexact hthree
  exact ⟨⟨hsource, hthree, hnine, hone⟩, by decide, hbytes, (horder 9 hnine).2.2 (by decide), hinside hone⟩

end Text

end Unhook
