import Mathlib.Data.List.Perm.Subperm
import Unhook.Proofs.Splice

/-!
# What expansion leaves

Every placeholder is written with the same reserved text. Expansion replaces
the holes that hold placeholders of blocks, round after round, and stops after a
fixed number of rounds. Of the reserved text it leaves what stands outside such
holes, in the text or in a block that it comes to, and it does not come to an
end when a block is shown within itself.

The texts of blocks are *framed* by brackets, so that no hole reaches from one
of them into what is around it.

* `Block.expandOnce_append`: a round goes on separately before and after a frame;
* `Block.infix_expandRounds_iff`: what a number of rounds leaves;
* `Block.infix_expand_iff`: what expansion leaves, in terms of the blocks that a
  text comes to.
-/

namespace Unhook

namespace Text

variable {p u : Text}

/-- Whether a character is an opening brace or angle bracket. -/
def isOpening (c : Char) : Bool := c = '\x7b' || c = '<'

/-- Whether a character is a closing brace or angle bracket, or a line feed. -/
def isClosing (c : Char) : Bool := c = '\x7d' || c = '>' || c = '\n'

/-- Whether a text begins with an opening bracket. -/
def opens (t : Text) : Bool := t.head?.any isOpening

/-- Whether a text ends with a closing bracket, or a line feed. -/
def closes (t : Text) : Bool := t.getLast?.any isClosing

/-- Whether a text begins and ends with brackets. A line feed may follow. -/
def isFramed (t : Text) : Bool := t.opens && t.closes

theorem isFramed_of_isBracketed {t : Text} (h : t.isBracketed = true) : t.isFramed = true := by
  obtain ⟨hopens, hcloses⟩ := Bool.and_eq_true_iff.1 h
  refine Bool.and_eq_true_iff.2 ⟨hopens, ?_⟩
  obtain ⟨c, hc, hclose⟩ := (Option.any_eq_true _ _).1 hcloses
  exact (Option.any_eq_true _ _).2 ⟨c, hc, Bool.or_eq_true_iff.2 (.inl hclose)⟩

/-- A word that brackets stand at the ends of only: frames fence it. -/
structure IsWord (p : Text) : Prop where
  head : p.tail.any isOpening = false
  last : p.dropLast.any isClosing = false

theorem IsWord.head_of_opens (hp : p.IsWord) (hu : u.opens = true) :
    ∃ c, u.head? = some c ∧ c ∉ p.tail := by
  obtain ⟨c, hc, hopen⟩ := (Option.any_eq_true _ _).1 hu
  exact ⟨c, hc, fun hmem => List.any_eq_false.1 hp.head c hmem hopen⟩

theorem IsWord.last_of_closes (hp : p.IsWord) (hu : u.closes = true) :
    ∃ c, u.getLast? = some c ∧ c ∉ p.dropLast := by
  obtain ⟨c, hc, hclose⟩ := (Option.any_eq_true _ _).1 hu
  exact ⟨c, hc, fun hmem => List.any_eq_false.1 hp.last c hmem hclose⟩

theorem IsWord.fences (hp : p.IsWord) (hu : u.isFramed = true) : Fences p u :=
  have ⟨hopens, hcloses⟩ := Bool.and_eq_true_iff.1 hu
  ⟨hp.head_of_opens hopens, hp.last_of_closes hcloses⟩

end Text

namespace Block

variable {t ds u : Text} {i : Nat} {b : Block} {n : Nat}

open Text

/-- The text that every placeholder begins with. -/
def reserved : Text := "__RAW_BLOCK_"

/-- The placeholder that is written with the given digits. -/
def mark (digits : Text) : Text := reserved ++ digits ++ "__"

theorem isWord_reserved : reserved.IsWord := ⟨by decide, by decide⟩

/-- The digits that a number is written with are digits. -/
theorem isDigit_of_toNat? (h : toNat? ds = some i) : ∀ c ∈ ds, isDigit c = true := by
  unfold toNat? at h
  split at h
  · cases h
  · next hds =>
    rw [Bool.or_eq_true, not_or] at hds
    simpa using hds.2

/-- A hole with a placeholder is a brace, the reserved text, digits and what
    ends it. -/
theorem holeText_mark (ds : Text) :
    holeText (mark ds) = '\x7b' :: (reserved ++ (ds ++ "__\x7d".toList)) := by
  simp only [holeText, mark, List.append_assoc]
  rfl

/-- Whether a character is one that texts are framed by. -/
def isFrame (c : Char) : Bool := isOpening c || isClosing c

/-- Placeholders have no brackets. -/
theorem any_isFrame_mark (h : toNat? ds = some i) : (mark ds).any isFrame = false := by
  have hreserved : reserved.any isFrame = false := by decide
  have hend : ("__".toList).any isFrame = false := by decide
  have hdigits : ds.any isFrame = false := by
    refine List.any_eq_false.2 fun c hc hframe => ?_
    have hne (d : Char) (hd : isDigit d = false) : c ≠ d := by
      rintro rfl
      rw [isDigit_of_toNat? h c hc] at hd
      cases hd
    simp [isFrame, isOpening, isClosing, hne _ (by decide : isDigit '\x7b' = false),
      hne _ (by decide : isDigit '<' = false), hne _ (by decide : isDigit '\x7d' = false),
      hne _ (by decide : isDigit '>' = false), hne _ (by decide : isDigit '\n' = false)] at hframe
  rw [mark, List.any_append, List.any_append, hreserved, hdigits, hend]
  rfl

theorem isWord_holeText {x : Text} (h : x.any isFrame = false) : (holeText x).IsWord := by
  have hname := List.any_eq_false.1 h
  have htail : (holeText x).tail = x ++ ['\x7d'] := rfl
  have hinit : (holeText x).dropLast = '\x7b' :: x := List.dropLast_concat
  refine ⟨List.any_eq_false.2 fun c hc hopen => ?_, List.any_eq_false.2 fun c hc hclose => ?_⟩
  · rw [htail] at hc
    rcases List.mem_append.1 hc with hc | hc
    · exact hname c hc (Bool.or_eq_true_iff.2 (.inl hopen))
    · obtain rfl := List.mem_singleton.1 hc
      cases hopen
  · rw [hinit] at hc
    rcases List.mem_cons.1 hc with rfl | hc
    · cases hclose
    · exact hname c hc (Bool.or_eq_true_iff.2 (.inr hclose))

theorem isWord_hole (h : toNat? ds = some i) : (holeText (mark ds)).IsWord :=
  isWord_holeText (any_isFrame_mark h)

/-- A hole with a placeholder has no other one in it. -/
theorem hole_infix_hole {ds es : Text} (h : toNat? ds = some i)
    (hin : holeText (mark es) <:+: holeText (mark ds)) : es = ds := by
  have hunbracketed : (mark ds).isUnbracketed = true := by
    refine List.all_eq_true.2 fun c hc => ?_
    have hc := List.any_eq_false.1 (any_isFrame_mark h) c hc
    simp only [isFrame, isOpening, isClosing, Bool.or_eq_true, decide_eq_true_eq, not_or] at hc
    simp [hc]
  have hmark := (holeText_infix_holeText hunbracketed).1 hin
  exact List.append_cancel_left (List.append_cancel_right hmark)

theorem after?_eq_some_iff {p t r : Text} : after? p t = some r ↔ t = p ++ r := by
  induction p generalizing t with
  | nil => simp [after?, eq_comm]
  | cons c p ih =>
    cases t with
    | nil => simp [after?]
    | cons d t =>
      rw [after?]
      split
      · next h => simp [h, ih]
      · next h => simp [eq_comm, h]

variable {blocks : List Block}

/-- Whether a word is a hole that holds the placeholder of a block, with that text. -/
def IsHole (blocks : List Block) (p u : Text) : Prop :=
  ∃ ds i b, toNat? ds = some i ∧ blocks[i]? = some b ∧ p = holeText (mark ds) ∧ u = b.text

/-- What is recognized as the hole of a block. -/
theorem finds_hole (blocks : List Block) : Finds (hole? blocks) (IsHole blocks) where
  ne_nil := by
    rintro p u ⟨ds, i, b, -, -, rfl, -⟩
    exact List.cons_ne_nil _ _
  iff t n u := by
    have hstart : "\x7b__RAW_BLOCK_".toList = '\x7b' :: reserved := rfl
    have hlength (ds : Text) : (holeText (mark ds)).length = ds.length + 16 := by
      rw [holeText_mark, List.length_cons, List.length_append, List.length_append]
      have h1 : reserved.length = 12 := rfl
      have h2 : "__\x7d".toList.length = 3 := rfl
      omega
    constructor
    · intro h
      unfold hole? at h
      obtain ⟨s, hs, h⟩ := Option.bind_eq_some_iff.1 h
      obtain ⟨r, hr, h⟩ := Option.bind_eq_some_iff.1 h
      obtain ⟨i, hi, h⟩ := Option.bind_eq_some_iff.1 h
      obtain ⟨b, hb, h⟩ := Option.bind_eq_some_iff.1 h
      cases h
      refine ⟨_, r, ⟨s.takeWhile isDigit, i, b, hi, hb, rfl, rfl⟩, ?_, (hlength _).symm⟩
      obtain ⟨s', hs'⟩ := List.takeWhile_prefix isDigit (l := s)
      rw [after?_eq_some_iff.1 hs, hstart, holeText_mark]
      have hr := after?_eq_some_iff.1 hr
      generalize s.takeWhile isDigit = ds at hs' hr ⊢
      rw [← hs', List.drop_left] at hr
      rw [← hs', hr]
      simp only [List.cons_append, List.append_assoc]
    · rintro ⟨p, r, ⟨ds, i, b, hi, hb, rfl, rfl⟩, rfl, rfl⟩
      have hstop : ("__\x7d".toList ++ r).takeWhile isDigit = [] := rfl
      have htake : (ds ++ ("__\x7d".toList ++ r)).takeWhile isDigit = ds := by
        rw [List.takeWhile_append_of_pos (isDigit_of_toNat? hi), hstop, List.append_nil]
      have hs : after? "\x7b__RAW_BLOCK_" (holeText (mark ds) ++ r) =
          some (ds ++ ("__\x7d".toList ++ r)) := by
        rw [after?_eq_some_iff, hstart, holeText_mark]
        simp only [List.cons_append, List.append_assoc]
      have hr : after? "__\x7d" ((ds ++ ("__\x7d".toList ++ r)).drop ds.length) = some r := by
        rw [after?_eq_some_iff, List.drop_left]
      simp only [hole?, hs, Option.bind_eq_bind, Option.bind_some, htake, hr, hi, hb, hlength]
      rfl

/-- Whether a text has a hole that holds the placeholder of the block at `i`,
    which is `b`. -/
def Shows (blocks : List Block) (t : Text) (i : Nat) (b : Block) : Prop :=
  blocks[i]? = some b ∧ ∃ ds, toNat? ds = some i ∧ holeText (mark ds) <:+: t

/-- Whether the holes at the end of one text and at the beginning of another do
    not reach into the other. -/
def Apart (a u : Text) : Prop :=
  ∀ ds i, toNat? ds = some i → ∀ x y, x ≠ [] → y ≠ [] → x <:+ a → y <+: u →
    holeText (mark ds) ≠ x ++ y

theorem apart_of_opens (hu : u.opens = true) (a : Text) : Apart a u :=
  fun _ _ hi x y hx hy hxa hyu h =>
    not_straddles_of_head ((isWord_hole hi).head_of_opens hu) ⟨x, y, hx, hy, h, hxa, hyu⟩

/-- A round of replacement goes on separately in two texts that are apart. -/
theorem expandOnce_append {a u : Text} (h : Apart a u) :
    expandOnce blocks (a ++ u) = expandOnce blocks a ++ expandOnce blocks u := by
  refine (finds_hole blocks).replace_append ?_
  rintro p v ⟨ds, i, b, hi, -, rfl, -⟩ ⟨x, y, hx, hy, hxy, hxa, hyu⟩
  exact h ds i hi x y hx hy hxa hyu hxy

/-- A text that shows no block is left as it is. -/
theorem expandOnce_of_free (h : ∀ i b, ¬Shows blocks t i b) : expandOnce blocks t = t := by
  refine (finds_hole blocks).replace_free ?_
  rintro p v ⟨ds, i, b, hi, hb, rfl, -⟩ hin
  exact h i b ⟨hb, ds, hi, hin⟩

/-- The hole of a block at the beginning of a text is replaced. -/
theorem expandOnce_hole (hi : toNat? ds = some i) (hb : blocks[i]? = some b) (s : Text) :
    expandOnce blocks (holeText (mark ds) ++ s) = b.text ++ expandOnce blocks s :=
  (finds_hole blocks).replace_word ⟨ds, i, b, hi, hb, rfl, rfl⟩ s

/-- To show something of all texts, it is enough to show it of those that show
    no block, and from what follows it of those with a first hole of a block. -/
theorem holes_induction (blocks : List Block) {motive : Text → Prop}
    (free : ∀ t, (∀ i b, ¬Shows blocks t i b) → motive t)
    (hole : ∀ a ds i b s, (∀ j d, ¬Shows blocks a j d) → toNat? ds = some i →
      blocks[i]? = some b → motive s → motive (a ++ (holeText (mark ds) ++ s)))
    (t : Text) : motive t := by
  have hfree {t : Text} (h : ∀ p u, IsHole blocks p u → ¬p <:+: t) (i : Nat) (b : Block) :
      ¬Shows blocks t i b := by
    rintro ⟨hb, ds, hi, hin⟩
    exact h _ _ ⟨ds, i, b, hi, hb, rfl, rfl⟩ hin
  refine (finds_hole blocks).induction (motive := fun t _ => motive t)
    (fun t h => free t (hfree h)) ?_ t
  rintro a p u s r h ⟨ds, i, b, hi, hb, rfl, rfl⟩ ih
  exact hole a ds i b s (hfree h) hi hb ih

/-! ### Frames -/

theorem isFramed_expandOnce (hblocks : ∀ b ∈ blocks, b.text.isFramed = true)
    (ht : t.isFramed = true) : (expandOnce blocks t).isFramed = true := by
  refine (finds_hole blocks).frames ?_ ht
  rintro p u ⟨ds, i, b, -, hb, -, rfl⟩
  exact hblocks b (List.mem_of_getElem? hb)

/-- A round leaves frames, and does not matter for what is around them. -/
theorem expandOnce_around (hu : u.isFramed = true) (a b : Text) :
    expandOnce blocks (a ++ (u ++ b)) =
      expandOnce blocks a ++ (expandOnce blocks u ++ expandOnce blocks b) := by
  refine (finds_hole blocks).replace_around ?_
  rintro p v ⟨ds, i, d, hi, -, rfl, -⟩
  exact (isWord_hole hi).fences hu

/-! ### What is left of the reserved text -/

/-- A text with nothing in the holes that hold placeholders of blocks. -/
def emptied (blocks : List Block) (t : Text) : Text :=
  expandOnce (blocks.map fun b => { b with text := "\x7b\x7d" }) t

/-- Whether a text has the reserved text outside the holes that hold
    placeholders of blocks. -/
def Exposes (blocks : List Block) (t : Text) : Prop := reserved <:+: emptied blocks t

/-- Whether a text has the reserved text after a number of rounds. -/
def LeaksAfter (blocks : List Block) : Nat → Text → Prop
  | 0, t => reserved <:+: t
  | n + 1, t => Exposes blocks t ∨ ∃ i b, Shows blocks t i b ∧ LeaksAfter blocks n b.text

theorem emptied_of_free (h : ∀ i b, ¬Shows blocks t i b) : emptied blocks t = t := by
  refine expandOnce_of_free fun i e he => ?_
  obtain ⟨he, hds⟩ := he
  rw [List.getElem?_map] at he
  obtain ⟨b, hb, -⟩ := Option.map_eq_some_iff.1 he
  exact h i b ⟨hb, hds⟩

theorem emptied_hole (hi : toNat? ds = some i) (hb : blocks[i]? = some b) (s : Text) :
    emptied blocks (holeText (mark ds) ++ s) = "\x7b\x7d" ++ emptied blocks s := by
  refine expandOnce_hole (b := { b with text := "\x7b\x7d" }) hi ?_ s
  rw [List.getElem?_map, hb]
  rfl

/-- Around a frame, a text shows what the pieces show. -/
theorem shows_around (hu : u.isFramed = true) (a b : Text) {d : Block} :
    Shows blocks (a ++ (u ++ b)) i d ↔
      Shows blocks a i d ∨ Shows blocks u i d ∨ Shows blocks b i d := by
  constructor
  · rintro ⟨hd, ds, hi, h⟩
    rcases ((isWord_hole hi).fences hu).infix_iff.1 h with h | h | h
    · exact .inl ⟨hd, ds, hi, h⟩
    · exact .inr (.inl ⟨hd, ds, hi, h⟩)
    · exact .inr (.inr ⟨hd, ds, hi, h⟩)
  · rintro (⟨hd, ds, hi, h⟩ | ⟨hd, ds, hi, h⟩ | ⟨hd, ds, hi, h⟩)
    · exact ⟨hd, ds, hi, ((isWord_hole hi).fences hu).infix_iff.2 (.inl h)⟩
    · exact ⟨hd, ds, hi, ((isWord_hole hi).fences hu).infix_iff.2 (.inr (.inl h))⟩
    · exact ⟨hd, ds, hi, ((isWord_hole hi).fences hu).infix_iff.2 (.inr (.inr h))⟩

/-- Around a frame, a text exposes what the pieces expose. -/
theorem exposes_around (hu : u.isFramed = true) (a b : Text) :
    Exposes blocks (a ++ (u ++ b)) ↔ Exposes blocks a ∨ Exposes blocks u ∨ Exposes blocks b := by
  have hempty : ∀ e ∈ blocks.map (fun b => { b with text := ("\x7b\x7d" : Text) }),
      e.text.isFramed = true := by
    intro e he
    obtain ⟨b, -, rfl⟩ := List.mem_map.1 he
    rfl
  have hframed : (emptied blocks u).isFramed = true := isFramed_expandOnce hempty hu
  rw [Exposes, emptied, expandOnce_around hu]
  exact (isWord_reserved.fences hframed).infix_iff

theorem leaksAfter_around (hu : u.isFramed = true) (a b : Text) (n : Nat) :
    LeaksAfter blocks n (a ++ (u ++ b)) ↔
      LeaksAfter blocks n a ∨ LeaksAfter blocks n u ∨ LeaksAfter blocks n b := by
  cases n with
  | zero => exact (isWord_reserved.fences hu).infix_iff
  | succ n =>
    simp only [LeaksAfter, exposes_around hu, shows_around hu, or_and_right, exists_or]
    grind

theorem leaksAfter_of_free (h : ∀ i b, ¬Shows blocks t i b) (n : Nat) :
    LeaksAfter blocks n t ↔ Exposes blocks t := by
  cases n with
  | zero => rw [LeaksAfter, Exposes, emptied_of_free h]
  | succ n => simp [LeaksAfter, h]

theorem isFramed_hole (ds : Text) : (holeText (mark ds)).isFramed = true :=
  isFramed_of_isBracketed (isBracketed_holeText _)

/-- What a round of replacement leaves, of what will leak. -/
theorem leaksAfter_expandOnce (hblocks : ∀ b ∈ blocks, b.text.isFramed = true) (n : Nat)
    (t : Text) : LeaksAfter blocks n (expandOnce blocks t) ↔ LeaksAfter blocks (n + 1) t := by
  induction t using holes_induction blocks with
  | free t hfree =>
    rw [expandOnce_of_free hfree, leaksAfter_of_free hfree, leaksAfter_of_free hfree]
  | hole a ds i b s hfree hi hb ih =>
    have hbtext := hblocks b (List.mem_of_getElem? hb)
    have hhole : LeaksAfter blocks (n + 1) (holeText (mark ds)) ↔ LeaksAfter blocks n b.text := by
      have hempty : ¬Exposes blocks (holeText (mark ds)) := by
        have h := emptied_hole hi hb []
        have hnil : emptied blocks [] = [] := rfl
        rw [List.append_nil, hnil] at h
        rw [Exposes, h]
        decide
      constructor
      · rintro (h | ⟨j, d, ⟨hd, es, hj, hin⟩, h⟩)
        · exact (hempty h).elim
        · obtain rfl := hole_infix_hole hi hin
          obtain rfl := Option.some.inj (hj.symm.trans hi)
          obtain rfl := Option.some.inj (hd.symm.trans hb)
          exact h
      · exact fun h => .inr ⟨i, b, ⟨hb, ds, hi, List.infix_rfl⟩, h⟩
    rw [expandOnce_append (apart_of_opens rfl a), expandOnce_of_free hfree, expandOnce_hole hi hb,
      leaksAfter_around hbtext, leaksAfter_around (isFramed_hole ds), ih, hhole,
      leaksAfter_of_free hfree, leaksAfter_of_free hfree]

/-- What a number of rounds leaves of the reserved text. -/
theorem infix_expandRounds_iff (hblocks : ∀ b ∈ blocks, b.text.isFramed = true) (n : Nat)
    (t : Text) : reserved <:+: expandRounds blocks n t ↔ LeaksAfter blocks n t := by
  induction n generalizing t with
  | zero => exact Iff.rfl
  | succ n ih => rw [expandRounds, ih, leaksAfter_expandOnce hblocks]

/-! ### Blocks within blocks -/

/-- The blocks that a text comes to: those that it shows, and those that their
    texts come to. -/
inductive Reaches (blocks : List Block) : Text → Nat → Block → Prop
  | shown {t : Text} {i : Nat} {b : Block} : Shows blocks t i b → Reaches blocks t i b
  | within {t : Text} {i j : Nat} {b d : Block} : Shows blocks t i b → Reaches blocks b.text j d →
    Reaches blocks t j d

/-- Whether the reserved text is left of a text for good: it has it outside holes
    of blocks, or comes to a block that has, or to one that is shown within
    itself. -/
def Leaks (blocks : List Block) (t : Text) : Prop :=
  Exposes blocks t ∨
    ∃ i b, Reaches blocks t i b ∧ (Exposes blocks b.text ∨ Reaches blocks b.text i b)

theorem Reaches.trans {i j : Nat} {b d : Block} (h : Reaches blocks t i b)
    (hd : Reaches blocks b.text j d) : Reaches blocks t j d := by
  induction h with
  | shown h => exact .within h hd
  | within h _ ih => exact .within h (ih hd)

theorem Leaks.of_shows (h : Shows blocks t i b) (hb : Leaks blocks b.text) : Leaks blocks t := by
  rcases hb with hb | ⟨j, d, hd, hleak⟩
  · exact .inr ⟨i, b, .shown h, .inl hb⟩
  · exact .inr ⟨j, d, .within h hd, hleak⟩

/-- What leaks for good exposes the reserved text, or shows a block that leaks
    for good. -/
theorem Leaks.cases (h : Leaks blocks t) :
    Exposes blocks t ∨ ∃ i b, Shows blocks t i b ∧ Leaks blocks b.text := by
  rcases h with h | ⟨j, d, hd, hleak⟩
  · exact .inl h
  · refine .inr ?_
    cases hd with
    | shown hd =>
      refine ⟨j, d, hd, ?_⟩
      rcases hleak with hleak | hcircle
      · exact .inl hleak
      · exact .inr ⟨j, d, hcircle, .inr hcircle⟩
    | within hs hd => exact ⟨_, _, hs, .inr ⟨j, d, hd, hleak⟩⟩

theorem infix_of_exposes (h : Exposes blocks t) : reserved <:+: t := by
  induction t using holes_induction blocks with
  | free t hfree => rwa [Exposes, emptied_of_free hfree] at h
  | hole a ds i b s hfree hi hb ih =>
    refine (isWord_reserved.fences (isFramed_hole ds)).infix_iff.2 (.inr (.inl ?_))
    exact ⟨['\x7b'], ds ++ "__\x7d".toList, by rw [holeText_mark]; simp⟩

theorem infix_of_shows (h : Shows blocks t i b) : reserved <:+: t := by
  obtain ⟨-, ds, -, h⟩ := h
  exact .trans ⟨['\x7b'], ds ++ "__\x7d".toList, by rw [holeText_mark]; simp⟩ h

/-- What leaks for good does so after every number of rounds. -/
theorem Leaks.leaksAfter (h : Leaks blocks t) (n : Nat) : LeaksAfter blocks n t := by
  induction n generalizing t with
  | zero =>
    rcases h.cases with h | ⟨i, b, h, -⟩
    · exact infix_of_exposes h
    · exact infix_of_shows h
  | succ n ih =>
    rcases h.cases with h | ⟨i, b, h, hb⟩
    · exact .inl h
    · exact .inr ⟨i, b, h, ih hb⟩

/-- Whether a text comes to a block by that many steps, from one block into the
    next. -/
def Nests (blocks : List Block) : Nat → Text → Prop
  | 0, _ => True
  | n + 1, t => ∃ i b, Shows blocks t i b ∧ Nests blocks n b.text

/-- A text that comes to no block within itself comes to no more blocks, one within
    the other, than there are besides those, `seen`, that it is within. -/
theorem le_of_nests {seen : List Nat} (h : Nests blocks n t)
    (hcircle : ∀ i b, Reaches blocks t i b → ¬Reaches blocks b.text i b) (hnodup : seen.Nodup)
    (hseen : ∀ j ∈ seen, ∃ d, blocks[j]? = some d ∧
      ∀ i b, Shows blocks t i b → Reaches blocks d.text i b) : n + seen.length ≤ blocks.length := by
  induction n generalizing t seen with
  | zero =>
    have hsubset : seen ⊆ List.range blocks.length := by
      intro j hj
      obtain ⟨d, hd, -⟩ := hseen j hj
      exact List.mem_range.2 (List.getElem?_eq_some_iff.1 hd).1
    have hlength := (hnodup.subperm hsubset).length_le
    rw [List.length_range] at hlength
    omega
  | succ n ih =>
    obtain ⟨i, b, hb, h⟩ := h
    -- The next block is none of those around it, or it would be within itself.
    have hi : i ∉ seen := by
      intro hi
      obtain ⟨d, hd, hreaches⟩ := hseen i hi
      obtain rfl := Option.some.inj (hb.1.symm.trans hd)
      exact hcircle i b (.shown hb) (hreaches i b hb)
    have hle := @ih b.text (i :: seen) h (fun j d hd => hcircle j d (.within hb hd))
      (List.nodup_cons.2 ⟨hi, hnodup⟩) ?_
    · rw [List.length_cons] at hle
      omega
    · intro j hj
      rcases List.mem_cons.1 hj with rfl | hj
      · exact ⟨b, hb.1, fun i d hd => .shown hd⟩
      · obtain ⟨d, hd, hreaches⟩ := hseen j hj
        exact ⟨d, hd, fun k e he => (hreaches i b hb).trans (.shown he)⟩

theorem nests_le (h : Nests blocks n t)
    (hcircle : ∀ i b, Reaches blocks t i b → ¬Reaches blocks b.text i b) : n ≤ blocks.length :=
  le_of_nests h hcircle List.nodup_nil fun _ hj => absurd hj List.not_mem_nil

/-- What leaks after a number of rounds but not for good comes to that many
    blocks. -/
theorem nests_of_leaksAfter (h : LeaksAfter blocks n t)
    (hleaks : ¬Leaks blocks t) : Nests blocks n t := by
  induction n generalizing t with
  | zero => trivial
  | succ n ih =>
    rcases h with h | ⟨i, b, hb, h⟩
    · exact (hleaks (.inl h)).elim
    · exact ⟨i, b, hb, ih h fun hleak => hleaks (.of_shows hb hleak)⟩

/-- Expansion leaves the reserved text if and only if it stands outside the holes
    of blocks, in the text or in a block that it comes to, or the text comes to a
    block that is shown within itself. -/
theorem infix_expand_iff (hblocks : ∀ b ∈ blocks, b.text.isFramed = true) (t : Text) :
    reserved <:+: expand blocks t ↔ Leaks blocks t := by
  rw [expand, infix_expandRounds_iff hblocks]
  refine ⟨fun h => Classical.byContradiction fun hleaks => ?_, fun h => h.leaksAfter _⟩
  have hle := nests_le (nests_of_leaksAfter h hleaks) fun i b hreach hcircle =>
    hleaks (.inr ⟨i, b, hreach, .inr hcircle⟩)
  omega

end Block

end Unhook
