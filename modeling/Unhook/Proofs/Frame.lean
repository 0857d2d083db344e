import Mathlib.Data.List.Forall2
import Mathlib.Data.List.Nodup
import Unhook.Diagnostic.Frame
import Unhook.Proofs.Position

/-!
# The rows of a frame

A frame is a text of rows. Each row has a gutter on the left of its separator and
some content on the right of it: a line of the source with its number, or the
carets under the line of the fault.

* `Frame.Row`: a row, on both sides of its separator;
* `Frame.window`: the numbered lines that a frame shows;
* `Frame.Drawn`: how the rows of a frame show a position;
* `Frame.render_drawn`: every frame is so drawn.
-/

namespace Unhook

/-- A larger number has no fewer digits. -/
theorem Text.length_ofNat_le {m n : Nat} (h : m ≤ n) : (ofNat m).length ≤ (ofNat n).length := by
  have hlt : n < 10 ^ (ofNat n).length :=
    (Nat.length_toDigits_le_iff (by decide) Nat.length_toDigits_pos).1 (Nat.le_refl _)
  exact (Nat.length_toDigits_le_iff (by decide) Nat.length_toDigits_pos).2
    (Nat.lt_of_le_of_lt h hlt)

theorem Text.length_padLeft {t : Text} {width : Nat} (h : t.length ≤ width) :
    (padLeft width t).length = width := by
  rw [padLeft, List.length_append, List.length_replicate]
  omega

/-- What a stretch of a text holds stands behind as many bytes as the stretch begins at. -/
theorem Text.slice?_eq_some {source t : Text} {span : Span} (h : source.slice? span = some t) :
    ∃ a b, source = a ++ (t ++ b) ∧ a.byteLength = span.start := by
  unfold slice? at h
  obtain ⟨-, -, h⟩ := Option.bind_eq_some_iff.1 h
  obtain ⟨⟨a, r⟩, ha, h⟩ := Option.bind_eq_some_iff.1 h
  obtain ⟨⟨t', b⟩, ht, h⟩ := Option.bind_eq_some_iff.1 h
  cases h
  obtain ⟨rfl, hlength⟩ := splitBytes_eq_some_iff.1 ha
  obtain ⟨rfl, -⟩ := splitBytes_eq_some_iff.1 ht
  exact ⟨a, b, rfl, hlength⟩

namespace Frame

variable {source message line : Text} {span : Span} {l : Nat}

/-! ### Rows -/

/-- A row, by what stands on the left and on the right of its separator. -/
structure Row where
  gutter : Text
  content : Text

/-- The characters of a row. -/
def Row.text (r : Row) : Text := r.gutter ++ [' ', '|', ' '] ++ r.content

/-- A row that shows a numbered line, behind a mark. -/
structure Row.Shows (r : Row) (mark : Char) (q : Text × Nat) : Prop where
  gutter : ∃ k, r.gutter = mark :: ' ' :: (List.replicate k ' ' ++ Text.ofNat q.2)
  content : r.content = q.1

/-- A row of carets from a column on, with a message behind them. -/
structure Row.Points (r : Row) (column carets : Nat) (message : Text) : Prop where
  gutter : ∀ c ∈ r.gutter, c = ' '
  content : r.content =
    List.replicate (column - 1) ' ' ++ List.replicate carets '^' ++ ' ' :: message

/-- The row of a numbered line. -/
def lineRow (width : Nat) (mark : Char) (q : Text × Nat) : Row where
  gutter := mark :: ' ' :: Text.padLeft width (Text.ofNat q.2)
  content := q.1

/-- The row of carets. -/
def pointerRow (width column carets : Nat) (message : Text) : Row where
  gutter := ' ' :: ' ' :: Text.padLeft width []
  content := List.replicate (column - 1) ' ' ++ List.replicate carets '^' ++ ' ' :: message

theorem sourceRow_eq (width : Nat) (marked : Bool) (number : Nat) (line : Text) :
    sourceRow width marked number line =
      (lineRow width (if marked then '>' else ' ') (line, number)).text ++ ['\n'] := by
  cases marked <;> rfl

theorem caretRow_eq (width column carets : Nat) (message : Text) :
    caretRow width column carets message =
      (pointerRow width column carets message).text ++ ['\n'] := by
  show ((' ' :: ' ' :: Text.padLeft width []) ++ [' ', '|', ' '] ++ List.replicate (column - 1) ' ' ++
    List.replicate carets '^' ++ [' '] ++ message ++ ['\n']) = _
  simp only [pointerRow, Row.text, List.append_assoc, List.cons_append, List.nil_append]

/-- The rows of some numbered lines, with the row of carets below the line of the fault. -/
def rowsOf (source : Text) (span : Span) (message : Text) (width : Nat) (fault : Position)
    (q : Text × Nat) : List Row :=
  if q.2 = fault.line then
    [lineRow width '>' q, pointerRow width fault.column (caretCount source span q.1 fault.column) message]
  else [lineRow width ' ' q]

theorem rows_eq (width : Nat) (fault : Position) (number : Nat) (lines : List Text) :
    rows source span message width fault number lines =
      ((lines.zipIdx number).flatMap (rowsOf source span message width fault)).map
        (·.text ++ ['\n']) := by
  induction lines generalizing number with
  | nil => rfl
  | cons line lines ih =>
    rw [List.zipIdx_cons, List.flatMap_cons, List.map_append, ← ih, rows, rowsOf]
    dsimp only
    split
    · next h => simp [h, sourceRow_eq, caretRow_eq]
    · next h => simp [h, sourceRow_eq]

/-! ### The lines that are shown -/

/-- The lines of a text with their numbers. -/
def numbered (source : Text) : List (Text × Nat) := source.splitLines.zipIdx 1

/-- The numbered lines from the one before line `l` to the one after it. -/
def window (source : Text) (l : Nat) : List (Text × Nat) :=
  (numbered source).filter fun q => l ≤ q.2 + 1 ∧ q.2 ≤ l + 1

/-- The members of a numbered list with numbers in an interval. -/
theorem filter_zipIdx {α : Type} (xs : List α) (k a b : Nat) :
    (xs.zipIdx (k + 1)).filter (fun q => k + a < q.2 ∧ q.2 ≤ k + b) =
      ((xs.take b).drop a).zipIdx (k + a + 1) := by
  induction xs generalizing k a b with
  | nil => simp
  | cons x xs ih =>
    -- All numbers of the rest are larger than that of the first member.
    have hlarge : ∀ q ∈ xs.zipIdx (k + 1 + 1), k + 1 < q.2 := fun q hq =>
      (List.mem_zipIdx_iff_le_and_getElem?_sub.1 hq).1
    rw [List.zipIdx_cons, List.filter_cons]
    cases b with
    | zero =>
      have hnone : ∀ q ∈ xs.zipIdx (k + 1 + 1), ¬decide (k + a < q.2 ∧ q.2 ≤ k + 0) = true := by
        intro q hq
        have := hlarge q hq
        rw [decide_eq_true_eq]
        omega
      rw [List.filter_eq_nil_iff.2 hnone, if_neg (by simp)]
      simp
    | succ b =>
      cases a with
      | zero =>
        have hrest := ih (k + 1) 0 b
        rw [List.filter_congr (q := fun q => decide (k + 1 + 0 < q.2 ∧ q.2 ≤ k + 1 + b)), hrest,
          if_pos (by simp)]
        · simp
        · intro q hq
          have := hlarge q hq
          rw [decide_eq_decide]
          omega
      | succ a =>
        have hrest := ih (k + 1) a b
        rw [Nat.add_right_comm k 1 a, Nat.add_right_comm k 1 b] at hrest
        rw [if_neg (by simp), ← Nat.add_assoc, ← Nat.add_assoc, hrest]
        simp

theorem window_eq (source : Text) (hl : l ≤ source.splitLines.length) :
    ((source.splitLines.take (min l (source.splitLines.length - 1) + 1)).drop (l - 1 - 1)).zipIdx
      (l - 1 - 1 + 1) = window source l := by
  have htake : source.splitLines.take (min l (source.splitLines.length - 1) + 1) =
      source.splitLines.take (l + 1) := by
    rw [List.take_eq_take_iff]
    omega
  have h := filter_zipIdx source.splitLines 0 (l - 1 - 1) (l + 1)
  rw [Nat.zero_add] at h
  rw [htake, ← h, window, numbered]
  refine List.filter_congr fun q hq => ?_
  have := (List.mem_zipIdx_iff_le_and_getElem?_sub.1 hq).1
  rw [decide_eq_decide]
  omega

/-- The width of the largest number of a line that is shown. -/
def numberWidth (source : Text) (l : Nat) : Nat :=
  (Text.ofNat (min l (source.splitLines.length - 1) + 1)).length

theorem length_ofNat_le_numberWidth {q : Text × Nat} (hq : q ∈ window source l) :
    (Text.ofNat q.2).length ≤ numberWidth source l := by
  rw [window, List.mem_filter, decide_eq_true_eq] at hq
  refine Text.length_ofNat_le ?_
  have := List.snd_lt_add_of_mem_zipIdx hq.1
  omega

theorem table_eq (source : Text) (span : Span) (message : Text) :
    table source span message = ((window source (source.position span.start).line).flatMap
      (rowsOf source span message (numberWidth source (source.position span.start).line)
        (source.position span.start))).map (·.text ++ ['\n']) := by
  rw [table, rows_eq, window_eq source (Text.has_position source span.start).line_le]
  rfl

theorem length_window_le (source : Text) (hl : l ≤ source.splitLines.length) :
    (window source l).length ≤ 3 := by
  rw [← window_eq source hl, List.length_zipIdx, List.length_drop, List.length_take]
  omega

/-- The other lines that are shown have other numbers. -/
theorem exists_window_eq (h : (line, l) ∈ numbered source) :
    ∃ above below, window source l = above ++ (line, l) :: below ∧
      ∀ q ∈ above ++ below, q.2 ≠ l := by
  have hmem : (line, l) ∈ window source l := by
    rw [window, List.mem_filter, decide_eq_true_eq]
    exact ⟨h, by dsimp only; omega⟩
  obtain ⟨above, below, hwindow⟩ := List.append_of_mem hmem
  have hnodup : ((window source l).map Prod.snd).Nodup := by
    refine List.Nodup.sublist (List.filter_sublist.map _) ?_
    rw [numbered, List.zipIdx_map_snd]
    exact List.nodup_range'
  rw [hwindow, List.map_append, List.map_cons, List.nodup_middle, List.nodup_cons,
    ← List.map_append] at hnodup
  exact ⟨above, below, hwindow, fun q hq hl => hnodup.1 (List.mem_map.2 ⟨q, hq, hl⟩)⟩

/-! ### Carets -/

/-- The stretch goes no further on its first line than that line does. -/
theorem reach_le (h : source.splitLines[(source.position span.start).line - 1]? = some line) :
    reach source span ≤ max (line.length - ((source.position span.start).column - 1)) 1 := by
  unfold reach
  split
  · next t ht =>
    obtain ⟨a, b, rfl, ha⟩ := Text.slice?_eq_some ht
    obtain ⟨above, l, below, hlines, -, hposition⟩ := Text.exists_lines a (t ++ b)
    rw [Text.position, ← ha, Text.before_of_prefix (List.prefix_append a _), hposition] at h ⊢
    rw [hlines] at h
    obtain rfl : l ++ (t ++ b).takeWhile (· != '\n') = line := by simpa using h
    have hle : (t.takeWhile (· != '\n')).length ≤ ((t ++ b).takeWhile (· != '\n')).length := by
      rw [List.takeWhile_append]
      split
      · next hall =>
        rw [hall, List.length_append]
        omega
      · exact Nat.le_refl _
    rw [List.length_append]
    dsimp only
    omega
  · omega

theorem caretCount_eq (h : source.splitLines[(source.position span.start).line - 1]? = some line) :
    caretCount source span line (source.position span.start).column =
      max 1 (reach source span) := by
  rw [caretCount, Nat.min_eq_left (reach_le h)]

/-! ### The whole frame -/

/-- How the rows of a frame show a position, with a number of carets below its line. -/
structure Drawn (source : Text) (fault : Position) (message line : Text) (carets : Nat)
    (above : List Row) (marked pointer : Row) (below : List Row) : Prop where
  /-- One row for each line from the one before to the one after, of which that of the line
      itself has the mark. -/
  lines : List.Forall₂ (fun r q => Row.Shows r (if q.2 = fault.line then '>' else ' ') q)
    (above ++ marked :: below) (window source fault.line)
  few : (above ++ marked :: below).length ≤ 3
  /-- No separator stands in a gutter, and all gutters have the same width. -/
  aligned : ∃ w, ∀ r ∈ above ++ marked :: pointer :: below, r.gutter.length = w ∧ '|' ∉ r.gutter
  shows_line : marked.Shows '>' (line, fault.line)
  points : pointer.Points fault.column carets message
  carets_pos : 1 ≤ carets
  /-- The carets stay under the line, but for one behind its end. -/
  carets_le : fault.column - 1 + carets ≤ line.length ∨ carets = 1 ∧ fault.column - 1 = line.length

section Rows

variable {width : Nat}

theorem shows_lineRow (mark : Char) (q : Text × Nat) : (lineRow width mark q).Shows mark q :=
  ⟨⟨_, rfl⟩, rfl⟩

theorem points_pointerRow (column carets : Nat) (message : Text) :
    (pointerRow width column carets message).Points column carets message where
  gutter c hc := by
    simp only [pointerRow, Text.padLeft, List.append_nil, List.mem_cons, List.mem_replicate] at hc
    rcases hc with rfl | rfl | ⟨-, rfl⟩ <;> rfl
  content := rfl

/-- Of the characters that are no digits, a gutter has only the mark and blanks. -/
theorem not_mem_gutter {c mark : Char} (hc : c.isDigit = false) (hmark : c ≠ mark)
    (hblank : c ≠ ' ') (q : Text × Nat) : c ∉ (lineRow width mark q).gutter := by
  have hdigits : c ∉ Text.ofNat q.2 := by
    intro h
    rw [Nat.isDigit_of_mem_toDigits (by decide) (by decide) h] at hc
    cases hc
  simp [lineRow, Text.padLeft, List.mem_replicate, hmark, hblank, hdigits]

theorem Row.not_mem_text {r : Row} (hgutter : '\n' ∉ r.gutter) (hcontent : '\n' ∉ r.content) :
    '\n' ∉ r.text := by
  simp [Row.text, hgutter, hcontent]

theorem not_mem_text_lineRow {mark : Char} (hmark : '\n' ≠ mark) {q : Text × Nat}
    (hq : q ∈ numbered source) : '\n' ∉ (lineRow width mark q).text := by
  refine Row.not_mem_text (not_mem_gutter (by decide) hmark (by decide) q) ?_
  exact Text.not_mem_of_mem_splitLines (List.fst_mem_of_mem_zipIdx hq)

theorem not_mem_text_pointerRow (column carets : Nat) (hmessage : '\n' ∉ message) :
    '\n' ∉ (pointerRow width column carets message).text := by
  have hpoints : (pointerRow width column carets message).Points _ _ _ := points_pointerRow _ _ _
  refine Row.not_mem_text (fun h => by cases hpoints.gutter _ h) ?_
  simp [pointerRow, List.mem_replicate, hmessage]

/-- Lines other than that of the fault have one row each. -/
theorem flatMap_rowsOf {fault : Position} {qs : List (Text × Nat)}
    (h : ∀ q ∈ qs, q.2 ≠ fault.line) :
    qs.flatMap (rowsOf source span message width fault) = qs.map (lineRow width ' ') := by
  induction qs with
  | nil => rfl
  | cons q qs ih =>
    rw [List.forall_mem_cons] at h
    rw [List.flatMap_cons, ih h.2, rowsOf, if_neg h.1]
    rfl

theorem splitLines_flatten {rs : List Row} (h : ∀ r ∈ rs, '\n' ∉ r.text) :
    Text.splitLines (rs.map (·.text ++ ['\n'])).flatten = rs.map Row.text ++ [[]] := by
  have hunlines : (rs.map (·.text ++ ['\n'])).flatten = Text.unlines (rs.map Row.text) ++ [] := by
    simp [Text.unlines, List.flatMap_def, Function.comp_def]
  rw [hunlines, Text.splitLines_unlines (List.forall_mem_map.2 h)]
  rfl

end Rows

section Parts

variable {line : Text} {above below : List (Text × Nat)}

theorem drawn_rows {fault : Position} {carets : Nat} (hhas : source.Has fault)
    (hwindow : window source fault.line = above ++ (line, fault.line) :: below)
    (hother : ∀ q ∈ above ++ below, q.2 ≠ fault.line) (hpos : 1 ≤ carets)
    (hle : fault.column - 1 + carets ≤ line.length ∨ carets = 1 ∧ fault.column - 1 = line.length) :
    Drawn source fault message line carets
      (above.map (lineRow (numberWidth source fault.line) ' '))
      (lineRow (numberWidth source fault.line) '>' (line, fault.line))
      (pointerRow (numberWidth source fault.line) fault.column carets message)
      (below.map (lineRow (numberWidth source fault.line) ' ')) := by
  rw [List.forall_mem_append] at hother
  have hfew := length_window_le source hhas.line_le
  have hshows {qs : List (Text × Nat)} (hqs : ∀ q ∈ qs, q.2 ≠ fault.line) : List.Forall₂
      (fun r q => Row.Shows r (if q.2 = fault.line then '>' else ' ') q)
      (qs.map (lineRow (numberWidth source fault.line) ' ')) qs := by
    refine List.forall₂_map_left_iff.2 (List.forall₂_same.2 fun q hq => ?_)
    rw [if_neg (hqs q hq)]
    exact shows_lineRow ' ' q
  have haligned {mark : Char} (hmark : '|' ≠ mark) {q : Text × Nat}
      (hq : q ∈ above ++ (line, fault.line) :: below) :
      (lineRow (numberWidth source fault.line) mark q).gutter.length =
          numberWidth source fault.line + 2 ∧
        '|' ∉ (lineRow (numberWidth source fault.line) mark q).gutter := by
    refine ⟨?_, not_mem_gutter (by decide) hmark (by decide) q⟩
    have hwidth := Text.length_padLeft (length_ofNat_le_numberWidth (hwindow ▸ hq))
    simp [lineRow, hwidth]
  refine ⟨?_, ?_, ⟨numberWidth source fault.line + 2, ?_⟩, shows_lineRow '>' _,
    points_pointerRow _ _ _, hpos, hle⟩
  · rw [hwindow]
    refine List.rel_append (hshows hother.1) (.cons ?_ (hshows hother.2))
    rw [if_pos rfl]
    exact shows_lineRow '>' _
  · rw [hwindow] at hfew
    simpa using hfew
  · intro r hr
    simp only [List.mem_append, List.mem_cons, List.mem_map] at hr
    rcases hr with ⟨q, hq, rfl⟩ | rfl | rfl | ⟨q, hq, rfl⟩
    · exact haligned (by decide) (by simp [hq])
    · exact haligned (by decide) (by simp)
    · refine ⟨by simp [pointerRow, Text.padLeft], fun h => ?_⟩
      have hpoints : (pointerRow (numberWidth source fault.line) fault.column carets message).Points
        _ _ _ := points_pointerRow _ _ _
      cases hpoints.gutter _ h
    · exact haligned (by decide) (by simp [hq])

theorem splitLines_table (hwindow : window source (source.position span.start).line =
      above ++ (line, (source.position span.start).line) :: below)
    (hother : ∀ q ∈ above ++ below, q.2 ≠ (source.position span.start).line)
    (hmessage : '\n' ∉ message) :
    Text.splitLines (table source span message).flatten =
      (above.map (lineRow (numberWidth source (source.position span.start).line) ' ') ++
        lineRow (numberWidth source (source.position span.start).line) '>'
          (line, (source.position span.start).line) ::
        pointerRow (numberWidth source (source.position span.start).line)
          (source.position span.start).column
          (caretCount source span line (source.position span.start).column) message ::
        below.map (lineRow (numberWidth source (source.position span.start).line) ' ')).map
          Row.text ++ [[]] := by
  rw [List.forall_mem_append] at hother
  have hnumbered {q : Text × Nat}
      (hq : q ∈ above ++ (line, (source.position span.start).line) :: below) :
      q ∈ numbered source := (List.mem_filter.1 (hwindow ▸ hq)).1
  rw [table_eq, hwindow, List.flatMap_append, List.flatMap_cons, flatMap_rowsOf hother.1,
    flatMap_rowsOf hother.2, rowsOf, if_pos rfl]
  refine splitLines_flatten fun r hr => ?_
  simp only [List.mem_append, List.mem_cons, List.mem_map, List.not_mem_nil, or_false] at hr
  rcases hr with ⟨q, hq, rfl⟩ | (rfl | rfl) | ⟨q, hq, rfl⟩
  · exact not_mem_text_lineRow (by decide) (hnumbered (by simp [hq]))
  · exact not_mem_text_lineRow (by decide) (hnumbered (by simp))
  · exact not_mem_text_pointerRow _ _ hmessage
  · exact not_mem_text_lineRow (by decide) (hnumbered (by simp [hq]))

end Parts

/-- The text of every frame, before the white space at its end is dropped, has rows that are
    drawn in this way, with as many carets as the stretch has characters on its first line, one
    at least. Nothing is taken from a smaller number, and the bounds for the carets are in
    order. -/
theorem render_drawn (hsource : source.byteLength < UInt32.size - 1) (span : Span)
    (hmessage : '\n' ∉ message) :
    ∃ line carets above marked pointer below,
      (render source span message = Text.trimEnd (table source span message).flatten ∧
        Text.splitLines (table source span message).flatten =
          (above ++ marked :: pointer :: below).map Row.text ++ [[]]) ∧
      Drawn source (source.position span.start) message line carets above marked pointer below ∧
      carets = max 1 (reach source span) ∧
      (line, (source.position span.start).line) ∈ numbered source ∧
      (1 ≤ (source.position span.start).line ∧ (source.position span.start).line < UInt32.size ∧
        1 ≤ (source.position span.start).column ∧
        (source.position span.start).column < UInt32.size ∧
        (source.position span.start).column - 1 ≤ line.length ∧
        1 ≤ source.splitLines.length ∧
        1 ≤ max (line.length - ((source.position span.start).column - 1)) 1) := by
  have hhas := Text.has_position source span.start
  have hle := Text.position_le source span.start
  obtain ⟨line, hline, hcolumn⟩ := hhas.exists_line
  have hmem : (line, (source.position span.start).line) ∈ numbered source :=
    List.mk_mem_zipIdx_iff_le_and_getElem?_sub.2 ⟨hhas.line_pos, hline⟩
  obtain ⟨above, below, hwindow, hother⟩ := exists_window_eq hmem
  refine ⟨line, _, _, _, _, _, ⟨rfl, splitLines_table hwindow hother hmessage⟩,
    drawn_rows hhas hwindow hother ?_ ?_, caretCount_eq hline, hmem, hhas.line_pos, ?_,
    hhas.column_pos, ?_, hcolumn, Nat.le_trans hhas.line_pos hhas.line_le, Nat.le_max_right _ _⟩
  · exact Nat.le_max_left _ _
  · rw [caretCount]
    omega
  · omega
  · omega

/-- Three lines, of which the second one is at fault from its second character on. -/
def faulty : Text := ['a', '\n', 'é', 'b', 'c', '\n', 'd']

theorem faulty_drawn :
    (faulty.byteLength < UInt32.size - 1 ∧ '\n' ∉ "here".toList) ∧
    ∃ line above marked pointer below,
      Text.splitLines (table faulty ⟨4, 6⟩ "here").flatten =
        (above ++ marked :: pointer :: below).map Row.text ++ [[]] ∧
      Drawn faulty ⟨2, 2⟩ "here" line 2 above marked pointer below := by
  have hsource : faulty.byteLength < UInt32.size - 1 := by decide
  have hmessage : '\n' ∉ "here".toList := by decide
  obtain ⟨line, carets, above, marked, pointer, below, ⟨-, hrows⟩, hdrawn, hcarets, -⟩ :=
    render_drawn hsource ⟨4, 6⟩ hmessage
  have hposition : faulty.position (Span.mk 4 6).start = ⟨2, 2⟩ := by decide
  have hreach : reach faulty ⟨4, 6⟩ = 2 := by decide
  rw [hposition] at hdrawn
  rw [hreach] at hcarets
  cases hcarets
  exact ⟨⟨hsource, hmessage⟩, line, above, marked, pointer, below, hrows, hdrawn⟩

end Frame

end Unhook
