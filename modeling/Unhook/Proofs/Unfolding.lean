import Unhook.Proofs.Mark

/-!
# Full expansion

Holes of blocks are replaced everywhere at once, round after round. What is meant
is a recursion on blocks: a hole is replaced by the text of its block, in which
the holes have been replaced in the same way (`Block.Unfolds`). Both agree when
the texts of blocks are framed and no block is within itself, in whatever order
the blocks stand: a text then comes to no more blocks, one within the other, than
there are, and each round goes one block further.

* `Block.exists_shows_expandRounds`: whether a number of rounds leaves a hole;
* `Block.unfolds_expandRounds`, `Block.Unfolds.eq_expandRounds`: rounds that leave none
  are full expansion, and no other text is;
* `Block.expand_unfolds`: so the rounds that are made are.
-/

namespace Unhook.Block

variable {i : Nat}

open Text

variable {blocks : List Block}

/-- What a text is when every hole of a block is replaced by the text of the block
    in which they are replaced: a text without such holes stays, and in any other one
    the first hole is replaced, and so are those in what follows. -/
inductive Unfolds (blocks : List Block) : Text → Text → Prop
  | free {t : Text} : (∀ i b, ¬Shows blocks t i b) → Unfolds blocks t t
  | hole {a ds s u r : Text} {i : Nat} {b : Block} : (∀ j d, ¬Shows blocks a j d) →
      toNat? ds = some i → blocks[i]? = some b → Unfolds blocks b.text u → Unfolds blocks s r →
      Unfolds blocks (a ++ (holeText (mark ds) ++ s)) (a ++ (u ++ r))

/-! ### Rounds -/

theorem expandRounds_of_free {t : Text} (h : ∀ i b, ¬Shows blocks t i b) (n : Nat) :
    expandRounds blocks n t = t := by
  induction n with
  | zero => rfl
  | succ n ih => rw [expandRounds, expandOnce_of_free h, ih]

/-- Rounds go on separately around a frame. -/
theorem expandRounds_around (hblocks : ∀ b ∈ blocks, b.text.isFramed = true) (n : Nat) {u : Text}
    (hu : u.isFramed = true) (a s : Text) : expandRounds blocks n (a ++ (u ++ s)) =
      expandRounds blocks n a ++ (expandRounds blocks n u ++ expandRounds blocks n s) := by
  induction n generalizing a u s with
  | zero => rfl
  | succ n ih =>
    rw [expandRounds, expandOnce_around hu, ih (isFramed_expandOnce hblocks hu)]
    rfl

/-- The first round puts in the text of a block, in which the others go on. -/
theorem expandRounds_hole (hblocks : ∀ b ∈ blocks, b.text.isFramed = true) {a ds : Text}
    {b : Block} (ha : ∀ j d, ¬Shows blocks a j d) (hi : toNat? ds = some i)
    (hb : blocks[i]? = some b) (n : Nat) (s : Text) :
    expandRounds blocks (n + 1) (a ++ (holeText (mark ds) ++ s)) =
      a ++ (expandRounds blocks n b.text ++ expandRounds blocks (n + 1) s) := by
  rw [expandRounds, expandOnce_append (apart_of_opens rfl a), expandOnce_of_free ha,
    expandOnce_hole hi hb, expandRounds_around hblocks n (hblocks b (List.mem_of_getElem? hb)),
    expandRounds_of_free ha]
  rfl

/-- The holes that a round leaves are those of the blocks that were shown. -/
theorem shows_expandOnce (hblocks : ∀ b ∈ blocks, b.text.isFramed = true) {j : Nat} {d : Block}
    (t : Text) : Shows blocks (expandOnce blocks t) j d ↔
      ∃ i b, Shows blocks t i b ∧ Shows blocks b.text j d := by
  induction t using holes_induction blocks with
  | free t hfree =>
    rw [expandOnce_of_free hfree]
    refine ⟨fun h => (hfree j d h).elim, ?_⟩
    rintro ⟨i, b, h, -⟩
    exact (hfree i b h).elim
  | hole a ds i b s hfree hi hb ih =>
    have hhole {k : Nat} {e : Block} : Shows blocks (holeText (mark ds)) k e ↔ k = i ∧ e = b := by
      constructor
      · rintro ⟨he, es, hk, hin⟩
        obtain rfl := hole_infix_hole hi hin
        obtain rfl := Option.some.inj (hk.symm.trans hi)
        exact ⟨rfl, Option.some.inj (he.symm.trans hb)⟩
      · rintro ⟨rfl, rfl⟩
        exact ⟨hb, ds, hi, List.infix_rfl⟩
    rw [expandOnce_append (apart_of_opens rfl a), expandOnce_of_free hfree, expandOnce_hole hi hb,
      shows_around (hblocks b (List.mem_of_getElem? hb)), ih]
    simp only [shows_around (isFramed_hole ds), hhole, hfree, false_or]
    constructor
    · rintro (h | ⟨k, e, hk, h⟩)
      · exact ⟨i, b, .inl ⟨rfl, rfl⟩, h⟩
      · exact ⟨k, e, .inr hk, h⟩
    · rintro ⟨k, e, ⟨rfl, rfl⟩ | hk, h⟩
      · exact .inl h
      · exact .inr ⟨k, e, hk, h⟩

/-- A number of rounds leaves a hole of a block if and only if the text comes to one
    more block than that. -/
theorem exists_shows_expandRounds (hblocks : ∀ b ∈ blocks, b.text.isFramed = true) (n : Nat)
    (t : Text) : (∃ i b, Shows blocks (expandRounds blocks n t) i b) ↔ Nests blocks (n + 1) t := by
  have hstep (n : Nat) (t : Text) :
      Nests blocks (n + 1) (expandOnce blocks t) ↔ Nests blocks (n + 2) t := by
    simp only [Nests, shows_expandOnce hblocks]
    constructor
    · rintro ⟨j, d, ⟨i, b, hi, hj⟩, h⟩
      exact ⟨i, b, hi, j, d, hj, h⟩
    · rintro ⟨i, b, hi, j, d, hj, h⟩
      exact ⟨j, d, ⟨i, b, hi, hj⟩, h⟩
  induction n generalizing t with
  | zero => simp [Nests, expandRounds]
  | succ n ih => exact (ih (expandOnce blocks t)).trans (hstep n t)

/-! ### Rounds and full expansion -/

/-- Rounds are full expansion if the text comes to no more blocks than that. -/
theorem unfolds_expandRounds (hblocks : ∀ b ∈ blocks, b.text.isFramed = true) {n : Nat} {t : Text}
    (h : ¬Nests blocks (n + 1) t) : Unfolds blocks t (expandRounds blocks n t) := by
  induction n generalizing t with
  | zero => exact .free fun i b hb => h ⟨i, b, hb, trivial⟩
  | succ n ihn =>
    induction t using holes_induction blocks with
    | free t hfree =>
      rw [expandRounds_of_free hfree]
      exact .free hfree
    | hole a ds i b s hfree hi hb ih =>
      have hshows {j : Nat} {d : Block} := @shows_around _ j blocks (isFramed_hole ds) a s d
      rw [expandRounds_hole hblocks hfree hi hb]
      -- What is shown by the block, or after it, is one block less deep.
      refine .hole hfree hi hb (ihn fun hnests => h ?_) (ih fun hnests => h ?_)
      · exact ⟨i, b, hshows.2 (.inr (.inl ⟨hb, ds, hi, List.infix_rfl⟩)), hnests⟩
      · obtain ⟨j, d, hd, hnests⟩ := hnests
        exact ⟨j, d, hshows.2 (.inr (.inr hd)), hnests⟩

/-- Full expansion is what enough rounds give. -/
theorem Unfolds.eq_expandRounds (hblocks : ∀ b ∈ blocks, b.text.isFramed = true) {t u : Text}
    (h : Unfolds blocks t u) : ∃ n, ∀ m, n ≤ m → expandRounds blocks m t = u := by
  induction h with
  | free hfree => exact ⟨0, fun m _ => expandRounds_of_free hfree m⟩
  | @hole a ds s u r i b hfree hi hb _ _ ihu ihr =>
    obtain ⟨n, hn⟩ := ihu
    obtain ⟨k, hk⟩ := ihr
    refine ⟨n + k + 1, fun m hm => ?_⟩
    obtain ⟨m, rfl⟩ : ∃ l, m = l + 1 := ⟨m - 1, by omega⟩
    rw [expandRounds_hole hblocks hfree hi hb, hn m (by omega), hk (m + 1) (by omega)]

theorem Unfolds.unique (hblocks : ∀ b ∈ blocks, b.text.isFramed = true) {t u v : Text}
    (hu : Unfolds blocks t u) (hv : Unfolds blocks t v) : u = v := by
  obtain ⟨n, hn⟩ := hu.eq_expandRounds hblocks
  obtain ⟨k, hk⟩ := hv.eq_expandRounds hblocks
  rw [← hn (n + k) (by omega), hk (n + k) (by omega)]

/-- A hole of no block stays where it is, and what is around it is expanded. -/
theorem expand_around_unknown (hblocks : ∀ b ∈ blocks, b.text.isFramed = true) {ds : Text}
    (hi : toNat? ds = some i) (hnone : blocks[i]? = none) (a s : Text) :
    expand blocks (a ++ (holeText (mark ds) ++ s)) =
      expand blocks a ++ (holeText (mark ds) ++ expand blocks s) := by
  have hfree : ∀ j d, ¬Shows blocks (holeText (mark ds)) j d := by
    rintro j d ⟨hd, es, hj, hin⟩
    obtain rfl := hole_infix_hole hi hin
    obtain rfl := Option.some.inj (hj.symm.trans hi)
    rw [hnone] at hd
    cases hd
  rw [expand, expandRounds_around hblocks _ (isFramed_hole ds), expandRounds_of_free hfree]
  rfl

/-- Blocks that have placeholders of earlier ones only are not within themselves. -/
theorem not_reaches_of_marks_lt (h : ∀ i b, blocks[i]? = some b → ∀ j ∈ marks b.text, j < i)
    {b : Block} (hb : blocks[i]? = some b) : ¬Reaches blocks b.text i b := by
  have hlt {t : Text} {j k : Nat} {d : Block} (ht : ∀ j ∈ marks t, j < k)
      (hd : Reaches blocks t j d) : j < k := by
    have hmark {t : Text} {j : Nat} {d : Block} (hd : Shows blocks t j d) : j ∈ marks t := by
      obtain ⟨-, ds, hj, hin⟩ := hd
      exact mem_marks.2 ⟨ds, hj, .trans ⟨['\x7b'], ['\x7d'], rfl⟩ hin⟩
    induction hd with
    | shown hd => exact ht _ (hmark hd)
    | within hd _ ih =>
      exact ih fun j hj => Nat.lt_trans (h _ _ hd.1 j hj) (ht _ (hmark hd))
  exact fun hcircle => Nat.lt_irrefl i (hlt (h i b hb) hcircle)

/-- Of blocks whose texts are framed by brackets (a line feed may follow) and of
    which none comes to itself, expansion is full expansion, and no other text is.
    As many rounds as there are blocks are enough, and more of them change nothing;
    no hole of a block is left; and a hole of no block is left as it is, with all
    else expanded around it. -/
theorem expand_unfolds (hframed : ∀ b ∈ blocks, b.text.isFramed = true)
    (hacyclic : ∀ i b, blocks[i]? = some b → ¬Reaches blocks b.text i b) (t : Text) :
    (∀ u, Unfolds blocks t u ↔ u = expand blocks t) ∧
    (∀ n, blocks.length ≤ n → expandRounds blocks n t = expand blocks t) ∧
    (∀ i b, ¬Shows blocks (expand blocks t) i b) ∧
    (∀ a ds i s, toNat? ds = some i → blocks[i]? = none → t = a ++ (holeText (mark ds) ++ s) →
      expand blocks t = expand blocks a ++ (holeText (mark ds) ++ expand blocks s)) := by
  have hnests (n : Nat) (hn : blocks.length ≤ n) : ¬Nests blocks (n + 1) t := by
    intro h
    have hexists {t : Text} {i : Nat} {b : Block} (h : Reaches blocks t i b) :
        blocks[i]? = some b := by
      induction h with
      | shown h => exact h.1
      | within _ _ ih => exact ih
    have hle := nests_le h fun i b hreach => hacyclic i b (hexists hreach)
    omega
  have hrounds (n : Nat) (hn : blocks.length ≤ n) : Unfolds blocks t (expandRounds blocks n t) :=
    unfolds_expandRounds hframed (hnests n hn)
  have hexpand : Unfolds blocks t (expand blocks t) := hrounds _ (Nat.le_succ _)
  refine ⟨fun u => ⟨fun h => h.unique hframed hexpand, fun h => h ▸ hexpand⟩,
    fun n hn => (hrounds n hn).unique hframed hexpand, fun i b hb => ?_, ?_⟩
  · exact hnests _ (Nat.le_succ _) ((exists_shows_expandRounds hframed _ t).1 ⟨i, b, hb⟩)
  · rintro a ds i s hi hnone rfl
    exact expand_around_unknown hframed hi hnone a s

/-- A list within a choice that shows it twice. -/
def nestedBlocks : List Block :=
  [⟨"\x7b#each xs as x\x7d<b />\x7b/each\x7d", []⟩,
    ⟨"\x7b#if a\x7d\n\x7b__RAW_BLOCK_0__\x7d\x7b__RAW_BLOCK_00__\x7d\n\x7b/if\x7d\n", []⟩]

theorem nestedBlocks_unfolded :
    (∀ b ∈ nestedBlocks, b.text.isFramed = true) ∧
    (∀ i b, nestedBlocks[i]? = some b → ¬Reaches nestedBlocks b.text i b) ∧
    (∀ u, Unfolds nestedBlocks "<p>\x7b__RAW_BLOCK_1__\x7d\x7b__RAW_BLOCK_7__\x7d</p>" u ↔
      u = expand nestedBlocks "<p>\x7b__RAW_BLOCK_1__\x7d\x7b__RAW_BLOCK_7__\x7d</p>") ∧
    expand nestedBlocks "<p>\x7b__RAW_BLOCK_1__\x7d\x7b__RAW_BLOCK_7__\x7d</p>" =
      ("<p>\x7b#if a\x7d\n\x7b#each xs as x\x7d<b />\x7b/each\x7d\x7b#each xs as x\x7d<b />\x7b/each\x7d\n\x7b/if\x7d\n\x7b__RAW_BLOCK_7__\x7d</p>" : Text) := by
  have hframed : ∀ b ∈ nestedBlocks, b.text.isFramed = true := by decide
  have hmarks : ∀ i b, nestedBlocks[i]? = some b → ∀ j ∈ marks b.text, j < i := by
    rintro (_ | _ | i) b hb <;> cases hb <;> decide
  have hacyclic : ∀ i b, nestedBlocks[i]? = some b → ¬Reaches nestedBlocks b.text i b :=
    fun i b hb => not_reaches_of_marks_lt hmarks hb
  exact ⟨hframed, hacyclic, (expand_unfolds hframed hacyclic _).1, by decide +kernel⟩

end Unhook.Block
