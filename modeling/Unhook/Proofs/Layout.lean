import Unhook.Compile
import Unhook.Proofs.Position
import Unhook.Proofs.Script

/-!
# Indentation

The items of a script are indented line by line, whatever a line is made of. So the
indentation that follows a line feed stands in whatever the line feed stands in:
between two tokens it is passed over by a reader, and within a token, as in a
template, it becomes part of the token.

* `Document.laid`: what indenting makes of a stretch of an item;
* `Document.indentItem_eq`: indenting an item is indenting its stretches;
* `Document.laid_eq_self_iff`: the stretches that are kept;
* `Component.tokens_laid_out`: what the layout of a document keeps of its script.
-/

namespace Unhook

/-! ### Lines -/

namespace Text

variable {c : Char}

theorem dropReturn_cons {l : Text} (hl : l ≠ []) : dropReturn (c :: l) = c :: dropReturn l := by
  obtain ⟨m, d, rfl⟩ := List.eq_nil_or_concat l |>.resolve_left hl
  by_cases hd : d = '\r'
  · simp [dropReturn, before?, after?, hd]
  · have hd' : ¬ '\r' = d := fun h => hd h.symm
    simp [dropReturn, before?, after?, hd']

theorem lines_feed (t : Text) : lines ('\n' :: t) = [] :: lines t := by
  obtain ⟨l, ls, ht⟩ := List.exists_cons_of_ne_nil (splitLines_ne_nil t)
  simp [lines, splitLines, ht, dropReturn, before?, after?]

theorem lines_return_feed (t : Text) : lines ('\r' :: '\n' :: t) = [] :: lines t := by
  obtain ⟨l, ls, ht⟩ := List.exists_cons_of_ne_nil (splitLines_ne_nil t)
  simp [lines, splitLines, ht, dropReturn, before?, after?]

theorem lines_single (hc : c ≠ '\n') : lines [c] = [[c]] := by
  simp [lines, splitLines, hc]

theorem lines_char_feed (hc : c ≠ '\n') (hr : c ≠ '\r') (t : Text) :
    lines (c :: '\n' :: t) = [c] :: lines t := by
  obtain ⟨l, ls, ht⟩ := List.exists_cons_of_ne_nil (splitLines_ne_nil t)
  have hr' : ¬ '\r' = c := fun h => hr h.symm
  simp [lines, splitLines, ht, dropReturn, before?, after?, hc, hr']

theorem lines_char {c d : Char} (hc : c ≠ '\n') (hd : d ≠ '\n') (t : Text) :
    ∃ l ls, lines (d :: t) = l :: ls ∧ lines (c :: d :: t) = (c :: l) :: ls := by
  obtain ⟨l, ls, ht⟩ := List.exists_cons_of_ne_nil (splitLines_ne_nil t)
  cases ls with
  | nil => exact ⟨d :: l, [], by simp [lines, splitLines, ht, hd], by simp [lines, splitLines, ht, hc, hd]⟩
  | cons m ls =>
    refine ⟨dropReturn (d :: l), _, by simp [lines, splitLines, ht, hd]; rfl, ?_⟩
    simp [lines, splitLines, ht, hc, hd, dropReturn_cons]

theorem lines_ne_nil {t : Text} (ht : t ≠ []) : lines t ≠ [] := by
  obtain ⟨c, t, rfl⟩ := List.exists_cons_of_ne_nil ht
  by_cases hc : c = '\n'
  · simp [hc, lines_feed]
  · cases t with
    | nil => simp [lines_single hc]
    | cons d t =>
      by_cases hd : d = '\n'
      · by_cases hr : c = '\r'
        · simp [hd, hr, lines_return_feed]
        · simp [hd, lines_char_feed hc hr]
      · obtain ⟨l, ls, -, h⟩ := lines_char hc hd t
        simp [h]

theorem join_cons (sep t : Text) (ts : List Text) :
    join sep (t :: ts) = t ++ ts.flatMap (sep ++ ·) := by
  induction ts generalizing t with
  | nil => simp [join]
  | cons u ts ih => simp [join, ih]

end Text

/-! ### Stretches of an item -/

namespace Document

variable {indent t next : Text} {c : Char}

/-- Whether a line that is not empty begins with a text. -/
def beginsLine : Text → Bool
  | [] | '\n' :: _ | '\r' :: '\n' :: _ => false
  | _ => true

/-- The indentation of a line that begins with a text. -/
def indentation (indent t : Text) : Text := if beginsLine t then indent else []

/-- What indenting an item makes of a stretch of it that is followed by `next`. -/
def laid (indent : Text) : (t next : Text) → Text
  | [], _ => []
  | c :: t, next =>
    if c = '\n' then '\n' :: indentation indent (t ++ next) ++ laid indent t next
    else if c = '\r' ∧ (t ++ next).head? = some '\n' then laid indent t next
    else c :: laid indent t next

theorem laid_append (indent t u next : Text) :
    laid indent (t ++ u) next = laid indent t (u ++ next) ++ laid indent u next := by
  induction t with
  | nil => rfl
  | cons c t ih =>
    rw [List.cons_append, laid, laid, ih, List.append_assoc]
    split
    · simp
    · split <;> simp

theorem beginsLine_char (hc : c ≠ '\n')
    (ht : c = '\r' → t.head? ≠ some '\n') : beginsLine (c :: t) = true := by
  unfold beginsLine
  split <;> simp_all

theorem laid_char {indent next : Text} (hc : c ≠ '\n')
    (ht : c = '\r' → (t ++ next).head? ≠ some '\n') :
    laid indent (c :: t) next = c :: laid indent t next := by
  rw [laid, if_neg hc, if_neg fun h => ht h.1 h.2]

/-- A line with its indentation, after the line feed that it follows. -/
def afterFeed (indent l : Text) : Text := '\n' :: if l.isEmpty then [] else indent ++ l

/-- What indenting makes of an item is its first line, and the others with their
    indentation. -/
theorem laid_lines (indent : Text) {t l : Text} {ls : List Text} (hlast : t.getLast? ≠ some '\n')
    (hlines : t.lines = l :: ls) :
    laid indent t [] = l ++ ls.flatMap (afterFeed indent) ∧ beginsLine t = !l.isEmpty := by
  induction t generalizing l ls with
  | nil => simp [Text.lines, Text.splitLines] at hlines
  | cons c t ih =>
    by_cases hc : c = '\n'
    · subst hc
      rw [Text.lines_feed] at hlines
      obtain ⟨rfl, rfl⟩ := List.cons.inj hlines
      have ht : t ≠ [] := fun h => by simp [h] at hlast
      have hlast' : t.getLast? ≠ some '\n' := by
        rwa [← List.singleton_append, List.getLast?_append_of_ne_nil _ ht] at hlast
      obtain ⟨m, ms, hms⟩ := List.exists_cons_of_ne_nil (Text.lines_ne_nil ht)
      obtain ⟨hlaid, hbegins⟩ := ih hlast' hms
      refine ⟨?_, rfl⟩
      rw [laid, if_pos rfl, List.append_nil, indentation, hbegins, hlaid, hms]
      cases m <;> simp [afterFeed]
    · cases t with
      | nil =>
        rw [Text.lines_single hc] at hlines
        obtain ⟨rfl, rfl⟩ := List.cons.inj hlines
        exact ⟨laid_char hc (by simp), beginsLine_char hc (by simp)⟩
      | cons d t =>
        have hlast' : (d :: t).getLast? ≠ some '\n' := by
          simpa [List.getLast?_cons_cons] using hlast
        by_cases hd : d = '\n'
        · subst hd
          obtain ⟨hlaid, -⟩ := ih hlast' (Text.lines_feed t)
          by_cases hr : c = '\r'
          · subst hr
            rw [Text.lines_return_feed] at hlines
            obtain ⟨rfl, rfl⟩ := List.cons.inj hlines
            exact ⟨by rw [laid, if_neg hc, if_pos ⟨rfl, rfl⟩, hlaid], rfl⟩
          · rw [Text.lines_char_feed hc hr] at hlines
            obtain ⟨rfl, rfl⟩ := List.cons.inj hlines
            have hreturn (u : Text) : c = '\r' → u.head? ≠ some '\n' := fun h => absurd h hr
            exact ⟨by rw [laid_char hc (hreturn _), hlaid]; rfl, beginsLine_char hc (hreturn _)⟩
        · obtain ⟨m, ms, hms, h⟩ := Text.lines_char hc hd t
          rw [h] at hlines
          obtain ⟨rfl, rfl⟩ := List.cons.inj hlines
          obtain ⟨hlaid, -⟩ := ih hlast' hms
          exact ⟨by rw [laid_char hc (by simp [hd]), hlaid]; rfl, beginsLine_char hc (by simp [hd])⟩

/-- An item is indented stretch by stretch, and its first line first. -/
theorem indentItem_eq {indent item : Text} (hlast : item.getLast? ≠ some '\n') :
    indentItem indent item = indentation indent item ++ laid indent item [] := by
  cases hlines : item.lines with
  | nil =>
    have hitem : item = [] := by
      by_contra h
      exact Text.lines_ne_nil h hlines
    subst hitem
    rfl
  | cons l ls =>
    obtain ⟨hlaid, hbegins⟩ := laid_lines indent hlast hlines
    rw [indentItem, hlines, List.map_cons, Text.join_cons, List.flatMap_map, indentation, hbegins,
      hlaid, ← List.append_assoc]
    have hrest : ls.flatMap (fun m => "\n".toList ++ if m.isEmpty then [] else indent ++ m) =
        ls.flatMap (afterFeed indent) := rfl
    rw [hrest]
    cases l <;> simp

/-! ### What is kept -/

/-- Whether a line feed of a stretch has a line after it that is not empty. -/
def turns : (t next : Text) → Bool
  | [], _ => false
  | c :: t, next => (c = '\n' && beginsLine (t ++ next)) || turns t next

theorem laid_eq_self (hreturn : '\r' ∉ t)
    (h : indent = [] ∨ turns t next = false) : laid indent t next = t := by
  induction t with
  | nil => rfl
  | cons c t ih =>
    rw [List.mem_cons, not_or] at hreturn
    rw [turns, Bool.or_eq_false_iff] at h
    have ih := ih hreturn.2 (h.imp_right And.right)
    by_cases hc : c = '\n'
    · have hindentation : indentation indent (t ++ next) = [] := by
        rcases h with rfl | h
        · simp [indentation]
        · simp_all [indentation]
      rw [laid, if_pos hc, ih, hindentation, hc]
      rfl
    · rw [laid_char hc fun h => absurd h.symm hreturn.1, ih]

theorem length_le_laid (hreturn : '\r' ∉ t) :
    t.length + (if turns t next then indent.length else 0) ≤ (laid indent t next).length := by
  induction t with
  | nil => simp [turns]
  | cons c t ih =>
    rw [List.mem_cons, not_or] at hreturn
    have ih := ih hreturn.2
    by_cases hc : c = '\n'
    · rw [laid, if_pos hc, turns, indentation]
      cases hbegins : beginsLine (t ++ next)
      · simp only [hc, decide_true, Bool.and_false, Bool.false_or, List.length_cons,
          List.length_append]
        simp
        omega
      · simp [hc]
        omega
    · rw [laid_char hc fun h => absurd h.symm hreturn.1, turns]
      simp only [hc, decide_false, Bool.false_and, Bool.false_or, List.length_cons]
      omega

/-- A stretch without carriage returns is kept unless one of its line feeds has a
    line after it that is indented. -/
theorem laid_eq_self_iff (hreturn : '\r' ∉ t) :
    laid indent t next = t ↔ indent = [] ∨ turns t next = false := by
  constructor
  · intro h
    by_contra hnot
    rw [not_or, Bool.not_eq_false] at hnot
    have hlength := @length_le_laid indent t next hreturn
    rw [h, if_pos hnot.2] at hlength
    have := List.length_pos_iff.2 hnot.1
    omega
  · exact laid_eq_self hreturn

theorem turns_of_not_mem (h : '\n' ∉ t) (next : Text) : turns t next = false := by
  induction t with
  | nil => rfl
  | cons c t ih =>
    rw [List.mem_cons, not_or] at h
    have hc : c ≠ '\n' := fun e => h.1 e.symm
    simp [turns, ih h.2, hc]

/-- Whether a text has a character of a line break. -/
def isBroken (t : Text) : Bool := t.any fun c => c = '\n' || c = '\r'

theorem isBroken_append (t u : Text) : isBroken (t ++ u) = (isBroken t || isBroken u) :=
  List.any_append

/-- A stretch within a line is kept. -/
theorem laid_of_not_isBroken (ht : isBroken t = false) : laid indent t next = t := by
  have hnot : '\n' ∉ t ∧ '\r' ∉ t := by
    constructor <;> intro h <;> simpa using List.any_eq_false.1 ht _ h
  exact laid_eq_self hnot.2 (.inr (turns_of_not_mem hnot.1 next))

theorem isBroken_escapeChar (c : Char) (next : Text) :
    isBroken (Quoted.escapeChar c next) = false := by
  unfold Quoted.escapeChar
  split
  case h_15 => simp_all [isBroken]
  all_goals first
    | rfl
    | split <;> rfl

theorem isBroken_escape {halves : Bool} {skip : Nat} {v : Text}
    (hv : halves = true → isBroken v = false) : isBroken (Quoted.escape halves skip v) = false := by
  have htail {c : Char} {t : Text} (h : halves = true → isBroken (c :: t) = false)
      (hhalves : halves = true) : isBroken t = false := by
    have := h hhalves
    rw [isBroken, List.any_cons, Bool.or_eq_false_iff] at this
    exact this.2
  fun_induction Quoted.escape halves skip v with
  | case1 => rfl
  | case2 skip c t ih => exact ih (htail hv)
  | case3 c t hmark digits ih =>
    have hdigits : isBroken digits = false := by
      have ht := List.any_eq_false.1 (htail hv (Bool.and_eq_true_iff.1 hmark).1)
      exact List.any_eq_false.2 fun x hx => ht x (List.mem_of_mem_take hx)
    rw [isBroken_append, ih (htail hv), Bool.or_false]
    split
    · rfl
    · rw [isBroken_append, hdigits]
      rfl
  | case4 c t hmark ih => rw [isBroken_append, isBroken_escapeChar, ih (htail hv)]; rfl

/-- A string is written on one line. -/
theorem isBroken_single {v : Text} {halves : Bool} (hv : halves = true → isBroken v = false) :
    isBroken (Quoted.single v halves) = false := by
  rw [Quoted.single, isBroken_append, isBroken_append, isBroken_escape hv]
  rfl

/-! ### Between tokens -/

/-- Whether a text consists of blanks and line ends. -/
def isGap (t : Text) : Bool := t.all fun c => Text.isBlank c || Text.isLineEnd c

/-- What a reader has come to: whether a line ended on the way, what the comments on
    the way say, and what follows. -/
def seen (r : Option (Token.Passed × Text)) : Option (Bool × Token.Notes × Text) :=
  r.map fun r => (r.1.newline, r.1.notes, r.2)

/-- What a reader that stands between tokens comes to. -/
def sight (t : Text) : Option (Bool × Token.Notes × Text) :=
  seen (Token.skipGap .code { offset := 0 } t)

/-- What a reader comes to does not depend on how far it has come. -/
theorem seen_skipGap {mode : Token.Gap} {p q : Token.Passed}
    (hnewline : p.newline = q.newline) (hnotes : p.notes = q.notes) :
    seen (Token.skipGap mode p t) = seen (Token.skipGap mode q t) := by
  fun_induction Token.skipGap mode p t generalizing q with
  | case1 p t ih => rw [Token.skipGap]; exact ih hnewline (by rw [hnotes])
  | case2 p t ih => rw [Token.skipGap]; exact ih hnewline (by rw [hnotes])
  | case3 p c t hline hblock hend ih =>
    rw [Token.skipGap.eq_3 q c t hline hblock, if_pos hend]
    exact ih (congrArg (· || true) hnewline) hnotes
  | case4 p c t hline hblock hend hblank ih =>
    rw [Token.skipGap.eq_3 q c t hline hblock, if_neg hend, if_pos hblank]
    exact ih (congrArg (· || false) hnewline) hnotes
  | case5 p c t hline hblock hend hblank =>
    rw [Token.skipGap.eq_3 q c t hline hblock, if_neg hend, if_neg hblank]
    simp [seen, hnewline, hnotes]
  | case6 p c t hend ih =>
    rw [Token.skipGap, if_pos hend]
    exact ih (congrArg (· || true) hnewline) hnotes
  | case7 p c t hend ih =>
    rw [Token.skipGap, if_neg hend]
    exact ih (congrArg (· || false) hnewline) hnotes
  | case8 p t ih =>
    rw [Token.skipGap]
    exact ih hnewline hnotes
  | case9 p c t hstar ih =>
    rw [Token.skipGap.eq_6 q c t hstar]
    exact ih (congrArg (· || Text.isLineEnd c) hnewline) hnotes
  | case10 p => rw [Token.skipGap]
  | case11 mode p hmode => 
    rw [Token.skipGap.eq_8 mode q hmode]
    simp [seen, hnewline, hnotes]

theorem skipGap_blank {p : Token.Passed} (hc : (Text.isBlank c || Text.isLineEnd c) = true) :
    Token.skipGap .code p (c :: t) = Token.skipGap .code (p.over c (Text.isLineEnd c)) t := by
  have hslash : c ≠ '/' := by
    rintro rfl
    revert hc
    decide
  rw [Token.skipGap.eq_3 p c t (fun _ h => absurd h hslash) (fun _ h => absurd h hslash)]
  cases hend : Text.isLineEnd c
  · simp_all
  · rfl

/-- A reader passes over a gap, and what it keeps of it is whether a line ended. -/
theorem skipGap_gap {g : Text} (hg : isGap g = true) (p : Token.Passed) (rest : Text) :
    seen (Token.skipGap .code p (g ++ rest)) =
      seen (Token.skipGap .code { p with newline := p.newline || g.any Text.isLineEnd } rest) := by
  induction g generalizing p with
  | nil => simp
  | cons c g ih =>
    rw [isGap, List.all_cons, Bool.and_eq_true] at hg
    rw [List.cons_append, skipGap_blank hg.1, ih hg.2]
    exact seen_skipGap (by simp [Token.Passed.over, Bool.or_assoc]) rfl

/-- Gaps in which a line ends, or none does, are the same to a reader. -/
theorem sight_gap {g g' : Text} (hg : isGap g = true) (hg' : isGap g' = true)
    (h : g'.any Text.isLineEnd = g.any Text.isLineEnd) (rest : Text) :
    sight (g' ++ rest) = sight (g ++ rest) := by
  rw [sight, sight, skipGap_gap hg, skipGap_gap hg', h]

/-- Indentation in a gap leaves it a gap. -/
theorem isGap_laid {indent g next : Text} (hindent : isGap indent = true) (hg : isGap g = true) :
    isGap (laid indent g next) = true := by
  induction g with
  | nil => rfl
  | cons c g ih =>
    rw [isGap, List.all_cons, Bool.and_eq_true] at hg
    have ih := ih hg.2
    rw [laid]
    unfold indentation
    split
    · split <;> simp_all [isGap]
    · split
      · exact ih
      · simp_all [isGap]

/-- Indentation in a gap leaves whether a line ends in it, if the gap does not end in
    the midst of a line break. -/
theorem any_isLineEnd_laid {indent g next : Text}
    (hend : g.getLast? = some '\r' → next.head? ≠ some '\n') :
    (laid indent g next).any Text.isLineEnd = g.any Text.isLineEnd ∧
      (laid indent g next = [] ↔ g = []) := by
  induction g with
  | nil => exact ⟨rfl, Iff.rfl⟩
  | cons c g ih =>
    have ih := ih fun h => hend (by
      rw [← List.singleton_append, List.getLast?_append, h]
      rfl)
    by_cases hc : c = '\n'
    · have hfeed : Text.isLineEnd '\n' = true := rfl
      simp [laid, hc, hfeed]
    · rw [laid, if_neg hc]
      split
      · next h =>
        -- The line feed that a carriage return is dropped before is in the gap.
        cases g with
        | nil => exact absurd h.2 (hend (by rw [h.1]; rfl))
        | cons d g =>
          obtain rfl : d = '\n' := by simpa using h.2
          have hfeed : Text.isLineEnd '\n' = true := rfl
          simp_all
      · simp [ih.1]

/-! ### Items -/

/-- A text cut into tokens, each with the gap before it. -/
abbrev Cut := List (Text × Text)

/-- The text that is cut. -/
def Cut.text (cut : Cut) : Text := cut.flatMap fun p => p.1 ++ p.2

/-- The gaps are gaps, and none of them ends in the midst of a line break. -/
def Cut.IsSound (cut : Cut) : Prop :=
  ∀ p ∈ cut, isGap p.1 = true ∧ p.2 ≠ [] ∧ (p.1.getLast? = some '\r' → p.2.head? ≠ some '\n')

/-- Two gaps that are the same to a reader. -/
structure SameGap (g g' : Text) : Prop where
  isGap : isGap g' = true
  isEmpty : g' = [] ↔ g = []
  sight : ∀ rest, sight (g' ++ rest) = sight (g ++ rest)

/-- What indenting makes of the tokens of an item: a token is kept unless one of its
    line feeds has a line after it that is indented. -/
inductive LaidOut (indent : Text) : Cut → Cut → Prop
  | nil : LaidOut indent [] []
  | cons {g g' t t' : Text} {cut cut' : Cut} (hgap : SameGap g g')
      (htoken : t' = laid indent t cut.text)
      (hkept : '\r' ∉ t → (t' = t ↔ indent = [] ∨ turns t cut.text = false))
      (hrest : LaidOut indent cut cut') : LaidOut indent ((g, t) :: cut) ((g', t') :: cut')

theorem Cut.text_cons (g t : Text) (cut : Cut) : Cut.text ((g, t) :: cut) = g ++ (t ++ cut.text) := by
  simp [text]

/-- A text that is cut is indented token by token. -/
theorem exists_laidOut {indent : Text} (hindent : isGap indent = true) {cut : Cut}
    (hcut : cut.IsSound) : ∃ cut', LaidOut indent cut cut' ∧ cut'.text = laid indent cut.text [] := by
  induction cut with
  | nil => exact ⟨[], .nil, rfl⟩
  | cons p cut ih =>
    obtain ⟨g, t⟩ := p
    obtain ⟨⟨hg, ht, hend⟩, hcut⟩ := List.forall_mem_cons.1 hcut
    obtain ⟨cut', hlaid, htext⟩ := ih hcut
    have hhead : (t ++ Cut.text cut).head? = t.head? := by
      obtain ⟨c, t, rfl⟩ := List.exists_cons_of_ne_nil ht
      rfl
    obtain ⟨hany, hempty⟩ := any_isLineEnd_laid (hhead ▸ hend)
    have hgap : SameGap g (laid indent g (t ++ Cut.text cut)) :=
      have hg' := isGap_laid hindent hg
      ⟨hg', hempty, sight_gap hg hg' hany⟩
    refine ⟨_, .cons hgap rfl laid_eq_self_iff hlaid, ?_⟩
    rw [Cut.text_cons, Cut.text_cons, laid_append, laid_append, htext, List.append_nil,
      List.append_nil]

/-- Tokens that each lie on one line are all kept. -/
theorem LaidOut.tokens {indent : Text} {cut cut' : Cut} (h : LaidOut indent cut cut')
    (hcut : ∀ p ∈ cut, isBroken p.2 = false) : cut'.map Prod.snd = cut.map Prod.snd := by
  induction h with
  | nil => rfl
  | cons _ htoken _ _ ih =>
    rw [List.forall_mem_cons] at hcut
    rw [List.map_cons, List.map_cons, ih hcut.2, htoken, laid_of_not_isBroken hcut.1]

theorem getLast?_append_ne {t u : Text} (hu : u.getLast? = some c) (hc : c ≠ '\n') :
    (t ++ u).getLast? ≠ some '\n' := by
  rw [List.getLast?_append, hu]
  exact fun h => hc (Option.some.inj h)

theorem getLast?_trimEnd (t : Text) : (Text.trimEnd t).getLast? ≠ some '\n' := by
  rw [Text.trimEnd, List.getLast?_reverse]
  intro h
  have := List.head?_dropWhile_not Text.isWhiteSpace t.reverse
  rw [h] at this
  simp [Text.isWhiteSpace] at this

end Document

/-- No item of a script ends in a line feed. -/
theorem Component.getLast?_script {options : Options} {c : Component} {items : List Text}
    (h : c.script options = .ok items) : ∀ item ∈ items, item.getLast? ≠ some '\n' := by
  intro item hitem
  obtain ⟨o, -, ho⟩ := Node.exists_of_forall₂ (writes_script h) hitem
  cases o with
  | ofModule s =>
    have hstatement : s.printStatement.getLast? ≠ some '\n' := Document.getLast?_trimEnd _
    rcases ho with ⟨-, ht⟩ | ⟨rfl, -⟩
    · -- What follows `export` ends like the whole statement.
      intro hlast
      rw [ht, List.getLast?_append, hlast] at hstatement
      exact hstatement rfl
    · exact hstatement
  | lifecycle | prop =>
    rw [ho]
    exact Document.getLast?_append_ne rfl (by decide)
  | ofBody =>
    rw [ho]
    exact Document.getLast?_trimEnd _
  | setter =>
    obtain ⟨param, f, -, -, rfl⟩ := ho
    exact Document.getLast?_trimEnd _

/-- The layout of a document keeps its script, but for tokens of several lines: the text
    between the tags is that of the items, each indented. An item that is cut into tokens
    is, after its first indentation, the same tokens with gaps between them that are the
    same to a reader, except that a token in which a line feed has a line after it that
    is not empty has the indentation within it. So tokens of one line are all kept, as
    every string is. -/
theorem Component.tokens_laid_out {options : Options} {c : Component} {d : Document}
    (hd : c.document options = .ok d) (hindent : ∀ x ∈ options.indent, x = ' ' ∨ x = '\t') :
    d.code = "<script>\n".toList ++ d.script.flatMap (fun item =>
        Document.indentItem options.indent item ++ "\n\n".toList) ++
          "</script>\n\n".toList ++ d.markup ∧
      (∀ item ∈ d.script, ∀ cut : Document.Cut, cut.text = item → cut.IsSound →
        ∃ first cut', Document.isGap first = true ∧ Document.LaidOut options.indent cut cut' ∧
          Document.indentItem options.indent item = first ++ cut'.text ∧
          ((∀ p ∈ cut, Document.isBroken p.2 = false) → cut'.map Prod.snd = cut.map Prod.snd)) ∧
      ∀ v halves next, (halves = true → Document.isBroken v = false) →
        Document.laid options.indent (Quoted.single v halves) next = Quoted.single v halves := by
  obtain ⟨script, markup, hscript, -, rfl⟩ := document_eq_ok hd
  have hgap : Document.isGap options.indent = true := by
    refine List.all_eq_true.2 fun x hx => ?_
    rcases hindent x hx with rfl | rfl <;> rfl
  refine And.intro ?_ (And.intro ?_ fun v halves next hv => ?_)
  · rw [List.flatMap_def]
    rfl
  · rintro item hitem cut rfl hcut
    obtain ⟨cut', hlaid, htext⟩ := Document.exists_laidOut hgap hcut
    refine ⟨Document.indentation options.indent cut.text, cut', ?_, hlaid, ?_, hlaid.tokens⟩
    · unfold Document.indentation
      split
      · exact hgap
      · rfl
    · rw [Document.indentItem_eq (getLast?_script hscript _ hitem), htext]
  · exact Document.laid_of_not_isBroken (Document.isBroken_single hv)

/-- A component with a statement of several lines. -/
def branchSource : Text :=
  "export default () => \x7b if (x) \x7b y = 'a'; \x7d return <p/>; \x7d;".toList

/-- The statement of `branchSource`, cut into tokens. -/
def branchCut : Document.Cut :=
  [("", "if"), (" ", "("), ("", "x"), ("", ")"), (" ", "\x7b"), ("\n\t", "y"), (" ", "="),
    (" ", "'a'"), ("", ";"), ("\n", "\x7d")].map fun p => (p.1.toList, p.2.toList)

theorem Component.branch_laid_out :
    ∃ c d, compileThrough {} Pass.all branchSource = .ok c ∧ c.document {} = .ok d ∧
      (∀ x ∈ ({} : Options).indent, x = ' ' ∨ x = '\t') ∧ d.script = [branchCut.text] ∧
      branchCut.IsSound ∧ ∃ first cut', Document.isGap first = true ∧
        Document.LaidOut "  " branchCut cut' ∧
        Document.indentItem "  " branchCut.text = first ++ cut'.text ∧
        cut'.map Prod.snd = branchCut.map Prod.snd := by
  have hsource : ((compileThrough {} Pass.all branchSource).toOption.bind fun c =>
      (c.document {}).toOption.map fun d => d.script) = some [branchCut.text] := by
    rw [(by apply String.toList_ofList : branchSource = _)]
    decide +kernel
  obtain ⟨c, hc, hsource⟩ := of_toOption_bind hsource
  obtain ⟨d, hd, hscript⟩ := of_toOption_map hsource
  have hindent : ∀ x ∈ ({} : Options).indent, x = ' ' ∨ x = '\t' := by
    intro x hx
    have hx : x ∈ [' ', ' '] := hx
    exact .inl (by simpa using hx)
  have hsound : branchCut.IsSound := by
    intro p hp
    have hall : branchCut.all fun p => Document.isGap p.1 && !p.2.isEmpty &&
        p.1.getLast? != some '\r' := by decide
    have hp := List.all_eq_true.1 hall p hp
    simp only [Bool.and_eq_true, Bool.not_eq_true', List.isEmpty_eq_false_iff, bne_iff_ne] at hp
    exact ⟨hp.1.1, hp.1.2, fun hend => absurd hend hp.2⟩
  obtain ⟨-, hitems, -⟩ := tokens_laid_out hd hindent
  obtain ⟨first, cut', hfirst, hlaid, htext, htokens⟩ :=
    hitems branchCut.text (by simp [hscript]) branchCut rfl hsound
  refine ⟨c, d, hc, hd, hindent, hscript, hsound, first,
    cut', hfirst, hlaid, htext, htokens fun p hp => ?_⟩
  have hall : branchCut.all fun p => !Document.isBroken p.2 := by decide
  simpa using List.all_eq_true.1 hall p hp

/-- A component with a template of two lines. -/
def templateSource : Text :=
  "export default () => \x7b const s = `a\nb`; return <p>\x7bs\x7d</p>; \x7d;".toList

/-- A template of two lines has the indentation of its second line within it. -/
theorem Component.template_indented :
    ∃ d, compile? {} templateSource = .ok d ∧ d.script = ["const s = `a\nb`;".toList] ∧
      d.code = "<script>\n  const s = `a\n  b`;\n\n</script>\n\n<p>\x7bs\x7d</p>".toList := by
  have hsource : ((compile? {} templateSource).toOption.map fun d => (d.script, d.code)) =
      some (["const s = `a\nb`;".toList],
        "<script>\n  const s = `a\n  b`;\n\n</script>\n\n<p>\x7bs\x7d</p>".toList) := by
    rw [(by apply String.toList_ofList : templateSource = _)]
    decide +kernel
  obtain ⟨d, hd, hsource⟩ := of_toOption_map hsource
  obtain ⟨hscript, hcode⟩ := Prod.mk.inj hsource
  exact ⟨d, hd, hscript, hcode⟩

end Unhook
