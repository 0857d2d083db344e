import Unhook.Markup.Block

/-!
# Texts put into texts

Blocks and markup variables are put into texts by replacing what stands for
them, from left to right. What is put in begins and ends with a bracket, and so
it is *fenced*: a word that has no such bracket in it occurs in the whole only
where it occurs in one of the pieces.

* `Text.Fences.infix_iff`: where a word occurs around a fenced text;
* `Text.Finds.induction`: replacement of words, one after the other;
* `Text.Finds.replace_append`: replacement in two texts that are joined;
* `Text.infix_replaceAll_iff`: which holes a text has after one of its names has
  been replaced.
-/

namespace Unhook

namespace Text

/-! ### Fences -/

variable {p u a b : Text}

/-- What is true of a text that no occurrence of `p` can reach into, from the
    left or from the right. -/
structure Fences (p u : Text) : Prop where
  head : ∃ c, u.head? = some c ∧ c ∉ p.tail
  last : ∃ c, u.getLast? = some c ∧ c ∉ p.dropLast

/-- Whether a text begins in the first of two joined texts and ends in the second. -/
def Straddles (p a b : Text) : Prop :=
  ∃ x y, x ≠ [] ∧ y ≠ [] ∧ p = x ++ y ∧ x <:+ a ∧ y <+: b

theorem infix_append_cases (h : p <:+: a ++ b) : p <:+: a ∨ p <:+: b ∨ Straddles p a b := by
  obtain ⟨s, t, h⟩ := h
  rcases List.append_eq_append_iff.1 h with ⟨a', ha, hb⟩ | ⟨y, hy, hb⟩
  · exact .inl ⟨s, a', ha.symm⟩
  · rcases List.append_eq_append_iff.1 hy with ⟨x, ha, hp⟩ | ⟨z, hs, hy⟩
    · by_cases hx : x = []
      · exact .inr (.inl ⟨[], t, by rw [hb, hp, hx]; rfl⟩)
      · by_cases hy : y = []
        · exact .inl ⟨s, [], by rw [ha, hp, hy]; simp⟩
        · exact .inr (.inr ⟨x, y, hx, hy, hp, ⟨s, ha.symm⟩, ⟨t, hb.symm⟩⟩)
    · exact .inr (.inl ⟨z, t, by rw [hb, hy]⟩)

theorem not_straddles_of_head (h : ∃ c, u.head? = some c ∧ c ∉ p.tail) : ¬Straddles p a u := by
  rintro ⟨x, y, hx, hy, rfl, -, t, rfl⟩
  obtain ⟨c, hc, hmem⟩ := h
  obtain ⟨d, x, rfl⟩ := List.exists_cons_of_ne_nil hx
  obtain ⟨e, y, rfl⟩ := List.exists_cons_of_ne_nil hy
  cases hc
  exact hmem (by simp)

theorem not_straddles_of_last (h : ∃ c, u.getLast? = some c ∧ c ∉ p.dropLast) :
    ¬Straddles p u b := by
  rintro ⟨x, y, hx, hy, rfl, ⟨s, rfl⟩, -⟩
  obtain ⟨c, hc, hmem⟩ := h
  rw [List.getLast?_append, List.getLast?_eq_some_getLast hx, Option.some_or] at hc
  cases hc
  rw [List.dropLast_append_of_ne_nil hy] at hmem
  exact hmem (List.mem_append_left _ (List.getLast_mem hx))

theorem infix_append_iff (h : ¬Straddles p a b) : p <:+: a ++ b ↔ p <:+: a ∨ p <:+: b := by
  constructor
  · intro hp
    rcases infix_append_cases hp with hp | hp | hp
    · exact .inl hp
    · exact .inr hp
    · exact (h hp).elim
  · rintro (hp | hp)
    · exact hp.trans (List.prefix_append a b).isInfix
    · exact hp.trans (List.suffix_append a b).isInfix

theorem Fences.not_straddles (h : Fences p u) : ¬Straddles p a (u ++ b) := by
  obtain ⟨c, hc, hmem⟩ := h.head
  exact not_straddles_of_head ⟨c, by rw [List.head?_append, hc]; rfl, hmem⟩

/-- Around a fenced text, a word occurs only in one of the three pieces. -/
theorem Fences.infix_iff (h : Fences p u) :
    p <:+: a ++ (u ++ b) ↔ p <:+: a ∨ p <:+: u ∨ p <:+: b := by
  rw [infix_append_iff h.not_straddles, infix_append_iff (not_straddles_of_last h.last)]

/-! ### Replacement -/

variable {find : Text → Option (Nat × Text)} {pat new : Text}

theorem replaceMatches_skip (find : Text → Option (Nat × Text)) (skip : Nat) (t : Text) :
    replaceMatches find skip t = replaceMatches find 0 (t.drop skip) := by
  induction skip generalizing t with
  | zero => rfl
  | succ skip ih =>
    cases t with
    | nil => rfl
    | cons c t => exact ih t

/-- Whether `find` recognizes words at the beginning of a text: those that `W` gives a
    text for, which takes their place. -/
structure Finds (find : Text → Option (Nat × Text)) (W : Text → Text → Prop) : Prop where
  ne_nil : ∀ p new, W p new → p ≠ []
  iff : ∀ t n new, find t = some (n, new) ↔ ∃ p r, W p new ∧ t = p ++ r ∧ n = p.length

namespace Finds

variable {W : Text → Text → Prop} {t : Text}

/-- A word at the beginning of a text is replaced. -/
theorem replace_word (hf : Finds find W) (hp : W p new) (s : Text) :
    replaceMatches find 0 (p ++ s) = new ++ replaceMatches find 0 s := by
  have hfind : find (p ++ s) = some (p.length, new) := (hf.iff _ _ _).2 ⟨p, s, hp, rfl, rfl⟩
  obtain ⟨c, q, rfl⟩ := List.exists_cons_of_ne_nil (hf.ne_nil _ _ hp)
  rw [List.cons_append] at hfind ⊢
  rw [replaceMatches, hfind]
  dsimp only
  rw [List.length_cons, Nat.add_sub_cancel, replaceMatches_skip, List.drop_left]

/-- Either a text has no words, and stays as it is, or the first one is replaced and
    replacement goes on behind it. -/
theorem replace_cases (hf : Finds find W) (t : Text) :
    ((∀ p new, W p new → ¬p <:+: t) ∧ replaceMatches find 0 t = t) ∨
    ∃ a p new s, t = a ++ (p ++ s) ∧ (∀ q v, W q v → ¬q <:+: a) ∧ W p new ∧
      replaceMatches find 0 t = a ++ (new ++ replaceMatches find 0 s) := by
  have hnil (p new : Text) (hp : W p new) : ¬p <:+: [] :=
    fun h => hf.ne_nil p new hp (List.infix_nil.1 h)
  induction t with
  | nil => exact .inl ⟨hnil, rfl⟩
  | cons c t ih =>
    cases hc : find (c :: t) with
    | some m =>
      obtain ⟨p, s, hp, hs, -⟩ := (hf.iff _ m.1 m.2).1 hc
      exact .inr ⟨[], p, m.2, s, hs, hnil, hp, by rw [hs, hf.replace_word hp]; rfl⟩
    | none =>
      have hhead (p new : Text) (hp : W p new) : ¬p <+: c :: t := by
        rintro ⟨r, hr⟩
        rw [(hf.iff _ _ _).2 ⟨p, r, hp, hr.symm, rfl⟩] at hc
        cases hc
      have hstep : replaceMatches find 0 (c :: t) = c :: replaceMatches find 0 t := by
        rw [replaceMatches, hc]
      rcases ih with ⟨hfree, ht⟩ | ⟨a, p, new, s, rfl, hfree, hp, ht⟩
      · refine .inl ⟨fun p new hp h => ?_, by rw [hstep, ht]⟩
        exact (List.infix_cons_iff.1 h).elim (hhead p new hp) (hfree p new hp)
      · refine .inr ⟨c :: a, p, new, s, rfl, fun q v hq h => ?_, hp, by rw [hstep, ht]; rfl⟩
        exact (List.infix_cons_iff.1 h).elim
          (fun h => hhead q v hq (h.trans (List.prefix_append (c :: a) _))) (hfree q v hq)

/-- A text without words is left as it is. -/
theorem replace_free (hf : Finds find W) (h : ∀ p new, W p new → ¬p <:+: t) :
    replaceMatches find 0 t = t := by
  rcases hf.replace_cases t with ⟨-, ht⟩ | ⟨a, p, new, s, rfl, -, hp, -⟩
  · exact ht
  · exact (h p new hp ⟨a, s, List.append_assoc _ _ _⟩).elim

/-- To show something of a text and what replacement makes of it, it is enough
    to show it of a text without words, and of one with a first word from what
    follows the word. -/
theorem induction (hf : Finds find W) {motive : Text → Text → Prop}
    (free : ∀ t, (∀ p new, W p new → ¬p <:+: t) → motive t t)
    (word : ∀ a p new s r, (∀ q v, W q v → ¬q <:+: a) → W p new → motive s r →
      motive (a ++ (p ++ s)) (a ++ (new ++ r))) (t : Text) : motive t (replaceMatches find 0 t) := by
  induction hlength : t.length using Nat.strongRecOn generalizing t with
  | ind length ih =>
    rcases hf.replace_cases t with ⟨hfree, ht⟩ | ⟨a, p, new, s, rfl, hfree, hp, ht⟩
    · rw [ht]
      exact free t hfree
    · rw [ht]
      refine word a p new s _ hfree hp (ih _ ?_ _ rfl)
      have hpos := List.length_pos_iff.2 (hf.ne_nil p new hp)
      rw [← hlength, List.length_append, List.length_append]
      omega

/-- Replacement in two texts that are joined is replacement in both, if no word begins in
    the first and ends in the second. -/
theorem replace_append (hf : Finds find W) (h : ∀ p new, W p new → ¬Straddles p a b) :
    replaceMatches find 0 (a ++ b) = replaceMatches find 0 a ++ replaceMatches find 0 b := by
  induction hn : a.length using Nat.strongRecOn generalizing a with
  | ind n ih =>
    subst hn
    cases a with
    | nil => rfl
    | cons c a =>
      have hrest {x : Text} (hx : x <:+ c :: a) (hlt : x.length < (c :: a).length) :
          replaceMatches find 0 (x ++ b) = replaceMatches find 0 x ++ replaceMatches find 0 b := by
        refine ih x.length hlt ?_ rfl
        rintro p new hp ⟨y, z, hy, hz, hyz, hyx, hzb⟩
        exact h p new hp ⟨y, z, hy, hz, hyz, hyx.trans hx, hzb⟩
      cases hm : find (c :: a) with
      | some m =>
        obtain ⟨p, r, hp, hr, -⟩ := (hf.iff _ m.1 m.2).1 hm
        have hlt : r.length < (c :: a).length := by
          have hpos := List.length_pos_iff.2 (hf.ne_nil _ _ hp)
          rw [hr, List.length_append]
          omega
        rw [hr, List.append_assoc, hf.replace_word hp, hf.replace_word hp,
          hrest (hr ▸ List.suffix_append p r) hlt, List.append_assoc]
      | none =>
        have hnone : find (c :: (a ++ b)) = none := by
          refine Option.eq_none_iff_forall_ne_some.2 fun m hm' => ?_
          obtain ⟨p, r, hp, hr, -⟩ := (hf.iff _ m.1 m.2).1 hm'
          rcases List.append_eq_append_iff.1 ((List.cons_append).trans hr) with ⟨y, hy, hb⟩ | ⟨y, hy, -⟩
          · -- The word reaches into the second text, unless it ends with the first.
            by_cases hnil : y = []
            · rw [(hf.iff _ _ _).2 ⟨p, [], hp, by rw [hy, hnil]; simp, rfl⟩] at hm
              cases hm
            · exact h p _ hp ⟨c :: a, y, List.cons_ne_nil c a, hnil, hy, List.suffix_rfl, r, hb.symm⟩
          · rw [(hf.iff _ _ _).2 ⟨p, y, hp, hy, rfl⟩] at hm
            cases hm
        rw [List.cons_append, replaceMatches, replaceMatches, hnone, hm,
          hrest (List.suffix_cons c a) (by simp), List.cons_append]

/-- Around a text that fences all words, replacement is replacement in the three pieces. -/
theorem replace_around (hf : Finds find W) (hu : ∀ p new, W p new → Fences p u) :
    replaceMatches find 0 (a ++ (u ++ b)) =
      replaceMatches find 0 a ++ (replaceMatches find 0 u ++ replaceMatches find 0 b) := by
  rw [hf.replace_append fun p new hp => (hu p new hp).not_straddles,
    hf.replace_append fun p new hp => not_straddles_of_last (hu p new hp).last]

/-- A text begins as before if what is put in begins so too. -/
theorem any_head? (hf : Finds find W) {P : Char → Bool}
    (hnew : ∀ p new, W p new → new.head?.any P = true) (ht : t.head?.any P = true) :
    (replaceMatches find 0 t).head?.any P = true := by
  refine hf.induction (motive := fun t r => t.head?.any P = true → r.head?.any P = true)
    (fun _ _ => id) (fun a p new s r _ hp _ h => ?_) t ht
  cases a with
  | nil =>
    obtain ⟨c, hc, hP⟩ := (Option.any_eq_true _ _).1 (hnew p new hp)
    rw [List.nil_append, List.head?_append, hc]
    exact hP
  | cons c a => exact h

/-- A text ends as before if what is put in ends so too. -/
theorem any_getLast? (hf : Finds find W) {P : Char → Bool}
    (hnew : ∀ p new, W p new → new.getLast?.any P = true)
    (ht : t.getLast?.any P = true) : (replaceMatches find 0 t).getLast?.any P = true := by
  -- What follows a word may be empty.
  refine (hf.induction (motive := fun t r => (t = [] → r = []) ∧
    (t.getLast?.any P = true → r.getLast?.any P = true)) (fun _ _ => ⟨id, id⟩) ?_ t).2 ht
  rintro a p new s r - hp ⟨hnil, ih⟩
  refine ⟨fun h => by simp [hf.ne_nil p new hp] at h, fun h => ?_⟩
  rw [List.getLast?_append, List.getLast?_append] at h ⊢
  cases hs : s.getLast? with
  | none =>
    obtain ⟨c, hc, hP⟩ := (Option.any_eq_true _ _).1 (hnew p new hp)
    rw [hnil (List.getLast?_eq_none_iff.1 hs), hc]
    exact hP
  | some d =>
    rw [hs] at h ih
    obtain ⟨c, hc, hP⟩ := (Option.any_eq_true _ _).1 (ih h)
    rw [hc]
    exact hP

theorem frames (hf : Finds find W) {P Q : Char → Bool}
    (hnew : ∀ p new, W p new → (new.head?.any P && new.getLast?.any Q) = true)
    (ht : (t.head?.any P && t.getLast?.any Q) = true) :
    ((replaceMatches find 0 t).head?.any P && (replaceMatches find 0 t).getLast?.any Q) = true := by
  simp only [Bool.and_eq_true] at hnew ht ⊢
  exact ⟨hf.any_head? (fun p new hp => (hnew p new hp).1) ht.1,
    hf.any_getLast? (fun p new hp => (hnew p new hp).2) ht.2⟩

end Finds

theorem replaceAll_eq (pat new t : Text) : replaceAll pat new t =
    replaceMatches (fun t => if startsWith t pat then some (pat.length, new) else none) 0 t := by
  suffices h : ∀ skip, replaceFrom pat new skip t =
      replaceMatches (fun t => if startsWith t pat then some (pat.length, new) else none) skip t by
    exact h 0
  induction t with
  | nil => exact fun skip => by cases skip <;> rfl
  | cons c t ih =>
    intro skip
    cases skip with
    | succ skip => exact ih skip
    | zero =>
      rw [replaceFrom, replaceMatches]
      split
      · exact congrArg (new ++ ·) (ih _)
      · exact congrArg (c :: ·) (ih 0)

/-- The occurrences of a text. -/
theorem finds_replaceAll (hpat : pat ≠ []) :
    Finds (fun t => if startsWith t pat then some (pat.length, new) else none)
      fun p v => p = pat ∧ v = new where
  ne_nil _ _ hp := hp.1 ▸ hpat
  iff t n v := by
    rw [Option.ite_none_right_eq_some, Option.some.injEq, Prod.mk.injEq, startsWith,
      List.isPrefixOf_iff_prefix]
    constructor
    · rintro ⟨⟨r, rfl⟩, rfl, rfl⟩
      exact ⟨pat, r, ⟨rfl, rfl⟩, rfl, rfl⟩
    · rintro ⟨p, r, ⟨rfl, rfl⟩, rfl, rfl⟩
      exact ⟨List.prefix_append p r, rfl, rfl⟩

/-- `Text.Finds.induction` for the occurrences of a text. -/
theorem replaceAll_induction (hpat : pat ≠ []) {motive : Text → Text → Prop}
    (unmatched : ∀ t, ¬pat <:+: t → motive t t)
    (matched : ∀ a b r, ¬pat <:+: a → motive b r →
      motive (a ++ (pat ++ b)) (a ++ (new ++ r))) (t : Text) : motive t (replaceAll pat new t) := by
  rw [replaceAll_eq]
  refine (finds_replaceAll hpat).induction (fun t h => unmatched t (h pat new ⟨rfl, rfl⟩)) ?_ t
  rintro a p v s r h ⟨rfl, rfl⟩
  exact matched a s r (h p v ⟨rfl, rfl⟩)

/-! ### Holes -/

/-- Whether a text has no braces and no angle brackets. -/
def isUnbracketed (t : Text) : Bool := t.all fun c => !(['\x7b', '\x7d', '<', '>'].contains c)

/-- Whether a text begins with an opening brace or angle bracket, and ends with a
    closing one. -/
def isBracketed (t : Text) : Bool :=
  (t.head?.any fun c => c = '\x7b' || c = '<') && (t.getLast?.any fun c => c = '\x7d' || c = '>')

theorem isBracketed_holeText (t : Text) : (holeText t).isBracketed = true := by
  have hlast : (holeText t).getLast? = some '\x7d' := List.getLast?_concat
  rw [isBracketed, hlast]
  rfl

theorem not_mem_of_isUnbracketed {v : Text} {c : Char} (hv : v.isUnbracketed = true)
    (hc : c ∈ ['\x7b', '\x7d', '<', '>']) : c ∉ v := by
  intro hcv
  have h := List.all_eq_true.1 hv c hcv
  rw [List.contains_iff_mem.2 hc] at h
  cases h

/-- A hole does not reach into a text that is bracketed. -/
theorem fences_holeText {v : Text} (hv : v.isUnbracketed = true) (hu : u.isBracketed = true) :
    Fences (holeText v) u := by
  have htail : (holeText v).tail = v ++ ['\x7d'] := rfl
  have hinit : (holeText v).dropLast = '\x7b' :: v := List.dropLast_concat
  obtain ⟨hhead, hlast⟩ := Bool.and_eq_true_iff.1 hu
  obtain ⟨c, hc, hopen⟩ := (Option.any_eq_true _ _).1 hhead
  obtain ⟨d, hd, hclose⟩ := (Option.any_eq_true _ _).1 hlast
  constructor
  · refine ⟨c, hc, ?_⟩
    rw [htail, List.mem_append, List.mem_singleton]
    rcases Bool.or_eq_true_iff.1 hopen with h | h <;>
      obtain rfl := of_decide_eq_true h <;> simp [not_mem_of_isUnbracketed hv]
  · refine ⟨d, hd, ?_⟩
    rw [hinit, List.mem_cons]
    rcases Bool.or_eq_true_iff.1 hclose with h | h <;>
      obtain rfl := of_decide_eq_true h <;> simp [not_mem_of_isUnbracketed hv]

theorem holeText_infix_holeText {v w : Text} (hw : w.isUnbracketed = true) :
    holeText v <:+: holeText w ↔ v = w := by
  have htext (x : Text) : holeText x = '\x7b' :: (x ++ ['\x7d']) := rfl
  refine ⟨?_, fun h => h ▸ List.infix_rfl⟩
  rintro ⟨s, t, h⟩
  rw [htext, htext] at h
  cases s with
  | cons c s =>
    -- A brace would open within the name.
    have hmem : '\x7b' ∈ w ++ ['\x7d'] := by
      rw [← (List.cons.inj h).2]
      simp
    simp [not_mem_of_isUnbracketed hw] at hmem
  | nil =>
    have h : v ++ '\x7d' :: t = w ++ ['\x7d'] := by simpa using (List.cons.inj h).2
    rcases List.append_eq_append_iff.1 h with ⟨x, hx, h⟩ | ⟨x, hx, h⟩
    · cases x with
      | nil => simpa using hx.symm
      | cons c x =>
        rw [(List.cons.inj h).1.symm] at hx
        have hmem : '\x7d' ∈ w := by simp [hx]
        exact (not_mem_of_isUnbracketed hw (by simp) hmem).elim
    · cases x with
      | nil => simpa using hx
      | cons c x => simp at h

/-- A text in which the holes of a name have been replaced has those holes that
    it had before and that are none of this name, and those of the text that is
    put in, if it is put in at all. -/
theorem infix_replaceAll_iff {v w : Text} (hv : v.isUnbracketed = true)
    (hw : w.isUnbracketed = true) (hu : u.isBracketed = true) (t : Text) :
    holeText v <:+: replaceAll (holeText w) u t ↔
      v ≠ w ∧ holeText v <:+: t ∨ holeText w <:+: t ∧ holeText v <:+: u := by
  have hne : holeText w ≠ [] := List.cons_ne_nil _ _
  have hfence := fences_holeText hv hu
  have hhole {x : Text} (hx : x.isUnbracketed = true) :=
    fences_holeText hx (isBracketed_holeText w)
  refine replaceAll_induction (motive := fun t r => holeText v <:+: r ↔
    v ≠ w ∧ holeText v <:+: t ∨ holeText w <:+: t ∧ holeText v <:+: u) hne ?_ ?_ t
  · intro t hnone
    simp only [hnone, false_and, or_false, iff_and_self]
    rintro hvt rfl
    exact hnone hvt
  · intro a b r hnone ih
    rw [hfence.infix_iff, (hhole hv).infix_iff, (hhole hw).infix_iff, ih,
      holeText_infix_holeText hw]
    by_cases h : v = w
    · subst h
      simp [hnone]
    · simp [h, hnone]
      grind

end Text

end Unhook
