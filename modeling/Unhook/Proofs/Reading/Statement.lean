import Unhook.Grammar.Module
import Unhook.Proofs.Reading.Expression

/-!
# Reading statements

A statement has its returns where it is read, and none where no return may be.
So a module has none at all, but in its functions (`within_parseModule?`).
-/

namespace Unhook.Grammar

open Parse

-- The search goes through every parser within a rule.
set_option synthInstance.maxSize 1000000

variable {self : Rules} [hself : self.Sound] {r : Span → Prop}

/-! ### Blocks and loops -/

instance : Forward (block self) := by unfold block; infer_instance

instance : Gives r (block self) := by unfold block; infer_instance

instance : Forward (body self) := by unfold body; infer_instance

instance : Gives r (body self) := by unfold body; infer_instance

instance : Calm (condition self) := by unfold condition; infer_instance

instance : Calm (declarator self) := by unfold declarator; infer_instance

instance : Forward varKind? := by
  refine .bind' inferInstance fun l => .bind' inferInstance fun t => ?_
  dsimp only
  repeat' split
  all_goals infer_instance

instance : Calm (declarators self) := by unfold declarators; infer_instance

section Loops

variable {s : Nat} {left : Node}

instance {kind : VarKind} {words : Nat} {declare : Bool} :
    Calm (variableDeclaration self s kind words declare) := by
  unfold variableDeclaration; infer_instance

instance {await : Bool} : Forward (loopOver self s await left) := by
  unfold loopOver; infer_instance

instance {await : Bool} [Within r left] : Gives r (loopOver self s await left) := by
  unfold loopOver; infer_instance

instance : Forward (loopCounting self s left) := by unfold loopCounting; infer_instance

instance [Within r left] : Gives r (loopCounting self s left) := by
  unfold loopCounting; infer_instance

end Loops

/-- A loop begins with its keyword, and what follows goes on from there. -/
theorem forLoop_eq : ∃ rest : Nat → Parse Node, (∀ s, Forward (rest s)) ∧
    forLoop self = start >>= fun s => expectWord "for" >>= fun _ => rest s := by
  refine ⟨_, fun s => .bind' inferInstance fun ctx => ?_, rfl⟩
  split
  all_goals
    refine .bind' inferInstance fun await => .bind' inferInstance fun _ =>
      .bind' inferInstance fun b => ?_
    split
    · infer_instance
    · refine .bind' inferInstance fun i => .bind' inferInstance fun byLet =>
        .bind' inferInstance fun l => .bind' inferInstance fun k => ?_
      dsimp only
      generalize Option.filter _ k = k
      rcases k with _ | ⟨kind, words⟩
      · refine .bind' inferInstance fun _ => .bind' inferInstance fun e => .bind' inferInstance fun b => ?_
        split
        · infer_instance
        · refine .bind' inferInstance fun _ => .bind' inferInstance fun _ => .bind' inferInstance fun c => ?_
          split <;> infer_instance
      · infer_instance

instance : Forward (forLoop self) := by
  obtain ⟨rest, hrest, heq⟩ := @forLoop_eq self hself
  rw [heq]
  infer_instance

instance : Gives r (forLoop self) := by
  refine .bindCalm inferInstance fun s _ => .bindCalm inferInstance fun _ _ =>
    .bindCalm inferInstance fun ctx _ => ?_
  split
  all_goals
    refine .bindCalm inferInstance fun await _ => .bindCalm inferInstance fun _ _ =>
      .bindCalm inferInstance fun b _ => ?_
    split
    · infer_instance
    · refine .bindCalm inferInstance fun i _ => .bindCalm inferInstance fun byLet _ =>
        .bindCalm inferInstance fun l _ => .bindCalm inferInstance fun k _ => ?_
      dsimp only
      generalize Option.filter _ k = k
      rcases k with _ | ⟨kind, words⟩
      · refine .bindCalm inferInstance fun _ _ => .bindCalm inferInstance fun e he =>
          .bindCalm inferInstance fun b _ => ?_
        split
        · infer_instance
        · refine .bindCalm inferInstance fun _ _ => .bindCalm inferInstance fun _ _ =>
            .bindCalm inferInstance fun c _ => ?_
          split
          · next t ht =>
            have := assignTarget?_within ht he
            infer_instance
          · infer_instance
      · infer_instance

instance : Forward (switchCase self) := by unfold switchCase; infer_instance

instance : Gives r (switchCase self) := by unfold switchCase; infer_instance

instance : Forward (catchClause self) := by unfold catchClause; infer_instance

instance : Gives r (catchClause self) := by unfold catchClause; infer_instance

instance : Forward (tryStatement self) := by unfold tryStatement; infer_instance

instance : Gives r (tryStatement self) := by unfold tryStatement; infer_instance

instance : Forward labelHere? := by unfold labelHere?; infer_instance


/-! ### Declarations -/

instance : Forward beginsDeclaration := by
  refine .bind' inferInstance fun l => ?_
  split <;> infer_instance

instance {n : Text} : Forward (beginsNamespace n) := by
  refine .bind' inferInstance fun l => ?_
  split <;> infer_instance

section Declarations

variable {s : Nat} {ds : Node} {mods : List Text} {declare : Bool} [hds : Within nowhere ds]

instance : Calm (classDeclaration self s ds declare) := by unfold classDeclaration; infer_instance

instance : Forward isClass := by unfold isClass; infer_instance

instance : Forward (moduleBlock self) := by unfold moduleBlock; infer_instance

instance : Gives r (moduleBlock self) := by unfold moduleBlock; infer_instance

instance : Forward (namespaceRule self s mods) := by
  refine .bind' inferInstance fun w => ?_
  split
  · infer_instance
  · refine .bind' inferInstance fun t => ?_
    split <;> infer_instance

instance : Gives r (namespaceRule self s mods) := by
  refine .bindCalm inferInstance fun w _ => ?_
  split
  · infer_instance
  · refine .bindCalm inferInstance fun t _ => ?_
    split <;> infer_instance

instance : Forward (typeDeclaration? self s declare) := by
  refine .bind' inferInstance fun b => ?_
  split
  · infer_instance
  · refine .bind' inferInstance fun t => ?_
    split <;> infer_instance

instance : Gives r (typeDeclaration? self s declare) := by
  refine .bindCalm inferInstance fun b _ => ?_
  split
  · infer_instance
  · refine .bindCalm inferInstance fun t _ => ?_
    split <;> infer_instance

instance : Calm (importEquals? s) := by unfold importEquals?; infer_instance

instance : Calm (importAssignment s) := by unfold importAssignment; infer_instance

instance : Forward (declared self s) := by
  unfold declared
  infer_instance

instance : Gives r (declared self s) := Gives.within fun _ h => h

instance : Forward (declaration? self) := by
  refine .bind' inferInstance fun s => .bind' inferInstance fun t => ?_
  cases t with
  | some t => infer_instance
  | none =>
    refine .bind' inferInstance fun k => ?_
    cases k with
    | some k => infer_instance
    | none =>
      refine .bind' inferInstance fun _ => .bind' inferInstance fun _ => ?_
      split
      · infer_instance
      · refine .bind' inferInstance fun b => ?_
        split
        · infer_instance
        · refine .bind' inferInstance fun _ => .bind' inferInstance fun _ => ?_
          split
          · refine .bind' inferInstance fun l => ?_
            split <;> infer_instance
          · infer_instance

instance : Gives r (declaration? self) := by
  refine .bindCalm inferInstance fun s _ => .bindOption' inferInstance inferInstance inferInstance ?_
    fun t _ => inferInstance
  refine .bindOption' inferInstance inferInstance inferInstance ?_ fun k _ => inferInstance
  refine .bindCalm inferInstance fun _ _ => .bindCalm inferInstance fun _ _ => ?_
  split
  · infer_instance
  · refine .bindCalm inferInstance fun b _ => ?_
    split
    · infer_instance
    · refine .bindCalm inferInstance fun _ _ => .bindCalm inferInstance fun _ _ => ?_
      split
      · refine .bindCalm inferInstance fun l _ => ?_
        split <;> infer_instance
      · infer_instance

end Declarations

/-! ### Imports and exports -/

instance : Forward moduleName := by
  refine .bind' inferInstance fun t => ?_
  split <;> infer_instance

instance : Forward isModuleName := by
  refine .bind' inferInstance fun t => ?_
  split <;> infer_instance

instance {a : ModuleName} : Forward (renamed a) := by unfold renamed; infer_instance

instance : Forward typeEntry := by unfold typeEntry; infer_instance

instance : Forward moduleEntry := by unfold moduleEntry; infer_instance

instance : Forward moduleEntries := by unfold moduleEntries; infer_instance

instance : Forward importAttributes := by
  refine .bind' inferInstance fun _ => .bind' inferInstance fun _ => .bind' inferInstance fun _ => ?_
  split
  · infer_instance
  · refine .bind' inferInstance fun w => .bind' inferInstance fun _ =>
      .bind' (.loop' fun items => ?_) fun items => inferInstance
    refine .bind' inferInstance fun b => ?_
    split
    · infer_instance
    · refine .bind' inferInstance fun t => ?_
      split <;> infer_instance

instance : Forward moduleSource := by unfold moduleSource; infer_instance

instance : Forward importPhase? := by
  refine .bind' inferInstance fun l => .bind' inferInstance fun b => ?_
  split
  · infer_instance
  · refine .bind' inferInstance fun b => ?_
    split
    · split <;> infer_instance
    · infer_instance

instance : Forward importClause := by
  unfold importClause
  infer_instance

instance : Forward marksAll := by
  refine .bind' inferInstance fun _ => .bind' inferInstance fun _ => ?_
  split
  · refine .bind' inferInstance fun l => ?_
    split <;> infer_instance
  · infer_instance

instance : Calm importItem := by
  refine .bind' inferInstance fun s _ => .bind' inferInstance fun _ _ =>
    .bind' inferInstance fun typeOnly _ => ?_
  split
  case' isTrue => refine .bind' inferInstance fun _ _ => ?_
  all_goals
    refine .bind' inferInstance fun i hi => ?_
    cases i with
    | some i =>
      have := Within.some_iff.1 hi
      infer_instance
    | none =>
      refine .bind' inferInstance fun t _ => ?_
      split <;> infer_instance

section Exports

variable {s : Nat} {ds : Node} [hds : Within nowhere ds]

instance : Calm (exportDefault self s ds) := by unfold exportDefault; infer_instance

instance : Calm (moreDecorators self ds) := by unfold moreDecorators; infer_instance

instance : Forward (exportedDeclaration self s ds) := by
  refine .bind' inferInstance fun d => .bindWith inferInstance Calm.calm fun ds _ => ?_
  split
  · infer_instance
  · refine .bind' inferInstance fun _ => .bind' inferInstance fun _ => ?_
    split
    · infer_instance
    · refine .bind' inferInstance fun d => ?_
      split <;> infer_instance

instance : Gives r (exportedDeclaration self s ds) := by
  refine .bindCalm inferInstance fun d _ => .bindCalm inferInstance fun ds _ => ?_
  split
  · infer_instance
  · refine .bindCalm inferInstance fun _ _ => .bindCalm inferInstance fun _ _ => ?_
    split
    · infer_instance
    · refine .bind' inferInstance (fun d => ?_) inferInstance fun d hd => ?_
      · split <;> infer_instance
      · split
        · have := Within.some_iff.1 hd
          infer_instance
        · have := Within.some_iff.1 hd
          infer_instance
        · infer_instance

instance {typeOnly : Bool} : Calm (exportNames s typeOnly) := by
  unfold exportNames; infer_instance

instance : Forward (exportItem self s ds) := by unfold exportItem; infer_instance

instance : Gives r (exportItem self s ds) := by unfold exportItem; infer_instance

end Exports

instance : Forward (decorated self) :=
  .bindWith inferInstance Calm.calm fun _ _ => .bindWith inferInstance Calm.calm fun _ _ =>
    inferInstance

instance : Gives r (decorated self) :=
  .bindCalm inferInstance fun _ _ => .bindCalm inferInstance fun _ _ => inferInstance


/-! ### Looking without moving -/

namespace Parse

variable {α β : Type}

/-- A parser that moves nothing. -/
class Steady (p : Parse α) : Prop where
  steady : ∀ {ctx c a d}, p ctx c = (some a, d) → d.toLexeme = c.toLexeme

/-- A parser that never answers that there is nothing. -/
class Answers (p : Parse (Option α)) : Prop where
  answers : ∀ {ctx c d}, p ctx c ≠ (some none, d)

/-- A parser that moves nothing if there is nothing. -/
class Unmoved (p : Parse (Option α)) : Prop where
  unmoved : ∀ {ctx c d}, p ctx c = (some none, d) → d.toLexeme = c.toLexeme

namespace Steady

variable {p q : Parse α} {f : α → Parse β}

theorem bind' (hp : Steady p) (hf : ∀ a, Steady (f a)) : Steady (p >>= f) where
  steady h := by
    obtain ⟨a, e, ha, hb⟩ := bind_eq_some.1 h
    exact ((hf a).steady hb).trans (hp.steady ha)

instance bind [hp : Steady p] [hf : ∀ a, Steady (f a)] : Steady (p >>= f) := bind' hp hf

instance pure {a : α} : Steady (pure a : Parse α) where
  steady h := by
    obtain ⟨-, rfl⟩ := pure_eq_some.1 h
    rfl

instance ite {b : Prop} [Decidable b] [hp : Steady p] [hq : Steady q] :
    Steady (if b then p else q) := by
  split <;> assumption

instance get : Steady (get : Parse Cursor) where
  steady h := by
    cases h
    rfl

instance read : Steady (read : Parse Context) where
  steady h := by
    cases h
    rfl

end Steady

instance : Steady token := by unfold token; infer_instance

instance : Steady start := by unfold start; infer_instance

instance : Steady peek := by unfold peek; infer_instance

instance : Steady typed := by unfold typed; infer_instance

instance {n : Text} : Steady (isWord n) := by unfold isWord; infer_instance

namespace Answers

instance pure {a : α} : Answers (pure (some a) : Parse (Option α)) where
  answers h := by cases h

instance bind {p : Parse β} {f : β → Parse (Option α)} [hf : ∀ b, Answers (f b)] :
    Answers (p >>= f) where
  answers h := by
    obtain ⟨a, e, -, hb⟩ := bind_eq_some.1 h
    exact (hf a).answers hb

instance ite {b : Prop} [Decidable b] {p q : Parse (Option α)} [hp : Answers p] [hq : Answers q] :
    Answers (if b then p else q) := by
  split <;> assumption

end Answers

namespace Unmoved

variable {p q : Parse (Option α)}

instance of_answers [hp : Answers p] : Unmoved p where
  unmoved h := absurd h hp.answers

instance of_steady [hp : Steady p] : Unmoved p where
  unmoved h := hp.steady h

instance ite {b : Prop} [Decidable b] [hp : Unmoved p] [hq : Unmoved q] :
    Unmoved (if b then p else q) := by
  split <;> assumption

theorem bind' {p : Parse β} {f : β → Parse (Option α)} (hp : Steady p)
    (hf : ∀ b, Unmoved (f b)) : Unmoved (p >>= f) where
  unmoved h := by
    obtain ⟨a, e, ha, hb⟩ := bind_eq_some.1 h
    exact ((hf a).unmoved hb).trans (hp.steady ha)

instance bind {p : Parse β} {f : β → Parse (Option α)} [hp : Steady p]
    [hf : ∀ b, Unmoved (f b)] : Unmoved (p >>= f) := bind' hp hf

/-- What follows on nothing moves nothing either. -/
theorem bindOption {p : Parse (Option β)} {f : Option β → Parse (Option α)} (hp : Unmoved p)
    (hnone : Unmoved (f none)) (hsome : ∀ b, Answers (f (some b))) : Unmoved (p >>= f) where
  unmoved h := by
    obtain ⟨a, e, ha, hb⟩ := bind_eq_some.1 h
    cases a with
    | none => exact (hnone.unmoved hb).trans (hp.unmoved ha)
    | some a => exact absurd hb (hsome a).answers

end Unmoved

end Parse

instance : Steady isAsyncFunction := by unfold isAsyncFunction; infer_instance

instance : Steady isClass := by unfold isClass; infer_instance

instance : Steady beginsDeclaration := by
  refine .bind' inferInstance fun l => ?_
  split <;> infer_instance

instance {n : Text} : Steady (beginsNamespace n) := by
  refine .bind' inferInstance fun l => ?_
  split <;> infer_instance

instance : Steady varKind? := by
  refine .bind' inferInstance fun l => .bind' inferInstance fun t => ?_
  dsimp only
  repeat' split
  all_goals infer_instance

instance {s : Nat} {declare : Bool} : Unmoved (typeDeclaration? self s declare) := by
  refine .bind' inferInstance fun b => ?_
  split
  · infer_instance
  · refine .bind' inferInstance fun t => ?_
    split <;> infer_instance

instance : Unmoved (declaration? self) := by
  refine .bind' inferInstance fun s => .bindOption inferInstance
    (.bindOption inferInstance ?_ inferInstance) inferInstance
  refine .bind' inferInstance fun _ => .bind' inferInstance fun _ => ?_
  split
  · infer_instance
  · refine .bind' inferInstance fun _ => ?_
    split
    · infer_instance
    · refine .bind' inferInstance fun _ => .bind' inferInstance fun _ => ?_
      split
      · refine .bind' inferInstance fun l => ?_
        split <;> infer_instance
      · infer_instance

/-! ### Statements that begin with a word -/

instance : Forward (expressionStatement self) := by
  refine .bind' inferInstance fun s => .bind' inferInstance fun e => ?_
  split <;> infer_instance

instance : Gives r (expressionStatement self) := by
  refine .bindCalm inferInstance fun s _ => .bindCalm inferInstance fun e _ => ?_
  split <;> infer_instance

instance : Calm (letStatement self) := by unfold letStatement; infer_instance

section Words

variable {n : Text}

instance : Forward (keywordStatement? self n) := by unfold keywordStatement?; infer_instance

theorem gives_return {s : Nat} {e : Node} (hs : ∀ t : Span, t.start = s → r t)
    (he : Within nowhere e) : Gives r (node .returnStatement s [e]) where
  gives _ h _ := by
    obtain ⟨rfl, -⟩ := node_eq_some h
    refine .of_node (.node ?_ (fun _ => ?_) (fun h => ?_) fun h => by cases h) ?_
    · exact fun p hp => List.mem_singleton.1 hp ▸ he.sound
    · exact fun p hp => List.mem_singleton.1 hp ▸ he.returns_eq_nil
    · cases h
    · intro t ht
      rw [Node.returns_returnStatement, List.flatMap_singleton, he.returns_eq_nil,
        List.mem_singleton] at ht
      exact hs t (ht ▸ rfl)

/-- A parser as in `Gives` where the cursor is at a word. -/
structure GivesAtWord (r : Span → Prop) {α : Type} [Carries α] (p : Parse α) : Prop where
  gives : ∀ {ctx c a d}, c.toLexeme.Sound → c.token.isWord = true → p ctx c = (some a, d) →
    Admits r ctx c d → Within r a

namespace GivesAtWord

variable {α β : Type} [Carries β]

theorem of_gives [Carries α] {p : Parse α} (hp : Gives r p) : GivesAtWord r p where
  gives hc _ h hr := hp.gives hc h hr

theorem bindSteady {p : Parse α} {f : α → Parse β} (hp : Steady p)
    (hf : ∀ a, GivesAtWord r (f a)) : GivesAtWord r (p >>= f) where
  gives {ctx c a d} hc hword h hr := by
    obtain ⟨a, e, ha, hb⟩ := bind_eq_some.1 h
    have he := hp.steady ha
    refine (hf a).gives (he ▸ hc) (he ▸ hword) hb ?_
    exact hr.right (Nat.le_of_eq (congrArg Lexeme.start he.symm))

variable [Carries α]

/-- The word is still there after nothing has been read before it. -/
theorem bindUnmoved {p : Parse (Option α)} {f : Option α → Parse β} (hp : Unmoved p)
    (hfp : Forward p) (hf : ∀ a, Forward (f (some a))) (hgp : Gives r p)
    (hnone : GivesAtWord r (f none)) (hsome : ∀ a, Within r a → Gives r (f (some a))) :
    GivesAtWord r (p >>= f) where
  gives {ctx c a d} hc hword h hr := by
    obtain ⟨a, e, ha, hb⟩ := bind_eq_some.1 h
    obtain ⟨he, hce⟩ := hfp.forward hc ha
    cases a with
    | none => exact hnone.gives he (hp.unmoved ha ▸ hword) hb (hr.right hce)
    | some a =>
      obtain ⟨-, hed⟩ := (hf a).forward he hb
      have hwithin := Within.some_iff.1 (hgp.gives hc ha (hr.left hed))
      exact (hsome a hwithin).gives he hb (hr.right hce)

theorem bindOption {p : Parse (Option α)} {f : Option α → Parse β}
    (hfp : Forward p) (hf : ∀ a, Forward (f (some a))) (hgp : GivesAtWord r p)
    (hnone : Gives r (f none)) (hsome : ∀ a, Within r a → Gives r (f (some a))) :
    GivesAtWord r (p >>= f) where
  gives {ctx c a d} hc hword h hr := by
    obtain ⟨a, e, ha, hb⟩ := bind_eq_some.1 h
    obtain ⟨he, hce⟩ := hfp.forward hc ha
    cases a with
    | none => exact hnone.gives he hb (hr.right hce)
    | some a =>
      obtain ⟨-, hed⟩ := (hf a).forward he hb
      have hwithin := Within.some_iff.1 (hgp.gives hc hword ha (hr.left hed))
      exact (hsome a hwithin).gives he hb (hr.right hce)

end GivesAtWord

theorem gives_keywordStatement? (hn : n ≠ "return") : Gives r (keywordStatement? self n) := by
  simp only [keywordStatement?, if_neg hn]
  infer_instance

theorem givesAtWord_keywordStatement? : GivesAtWord r (keywordStatement? self n) := by
  by_cases hn : n = "return"
  · subst hn
    refine ⟨fun {ctx c a d} hc hword h hr => ?_⟩
    obtain ⟨s, e, hs, h⟩ := bind_eq_some.1 h
    cases hs
    iterate 5 rw [if_neg (by decide)] at h
    rw [if_pos rfl] at h
    obtain ⟨_, e, hread, h⟩ := bind_eq_some.1 h
    cases hread
    obtain ⟨_, e, hcheck, h⟩ := bind_eq_some.1 h
    obtain ⟨hret, rfl⟩ := check_eq_some hcheck
    obtain ⟨_, e₁, hadvance, h⟩ := bind_eq_some.1 h
    obtain ⟨he₁, hle⟩ := advance_eq_some hadvance
    have hlt := Nat.lt_of_lt_of_le (hc.lt (Token.isSolid_of_isWord hword)) hle
    obtain ⟨-, hd⟩ := Forward.forward he₁ h
    have hs (t : Span) (ht : t.start = e.start) : r t :=
      hr hret t (Nat.le_of_eq ht.symm) (by omega)
    refine (?_ : Gives r _).gives he₁ h (hr.right (Nat.le_of_lt hlt))
    refine .bindCalm inferInstance fun _ _ => .bindCalm inferInstance fun _ _ =>
      .bindCalm inferInstance fun _ _ => .bindCalm inferInstance fun _ _ => ?_
    dsimp only
    split
    all_goals
      exact .bindCalm inferInstance fun e he => .bindCalm inferInstance fun _ _ =>
        .bind' inferInstance inferInstance (gives_return hs he) fun _ _ => inferInstance
  · exact .of_gives (gives_keywordStatement? hn)

end Words

/-- A word that the cursor is at can be read. -/
theorem gives_token {f : Token → Parse Node} (hword : ∀ t, t.isWord = true → GivesAtWord r (f t))
    (hf : ∀ t, t.isWord = false → Gives r (f t)) : Gives r (token >>= f) where
  gives {ctx c a d} hc h hr := by
    obtain ⟨t, e, ht, h⟩ := bind_eq_some.1 h
    cases ht
    cases hw : c.token.isWord with
    | true => exact (hword _ hw).gives hc hw h hr
    | false => exact (hf _ hw).gives hc h hr

instance : Forward (plainStatement self) := by
  refine .bind' inferInstance fun s => .bind' inferInstance fun t => ?_
  split <;> infer_instance

instance : Gives r (plainStatement self) := by
  refine .bindCalm inferInstance fun s _ => gives_token (fun t ht => ?_) fun t ht => ?_
  · split
    · cases ht
    · split
      · exact .of_gives inferInstance
      · split
        · exact .of_gives inferInstance
        · split
          case' isTrue =>
            refine .bindSteady inferInstance fun next => ?_
            split
            · exact .of_gives inferInstance
          all_goals
            exact .bindUnmoved inferInstance inferInstance inferInstance inferInstance
              (.bindOption inferInstance inferInstance givesAtWord_keywordStatement? inferInstance
                fun _ _ => inferInstance) fun _ _ => inferInstance
    · exact .of_gives inferInstance
  · split
    · infer_instance
    · cases ht
    · infer_instance

section Marked

variable {n : Node}

theorem markDeclared_within (h : Within r n) : Within r (markDeclared n) := by
  fun_induction markDeclared n with
  | case1 s d ih =>
    have := ih (h.of_mem rfl List.mem_cons_self)
    infer_instance
  | case2 s d =>
    have := h.of_mem rfl List.mem_cons_self
    infer_instance
  | case3 declare s d t p n v ds =>
    have hd := h.of_mem rfl List.mem_cons_self
    have hp := hd.of_mem rfl List.mem_cons_self
    have hn := hd.of_mem rfl (List.mem_cons_of_mem _ List.mem_cons_self)
    have hv := hd.of_mem rfl (List.mem_cons_of_mem _ (List.mem_cons_of_mem _ List.mem_cons_self))
    have hds : Within r ds := Within.list_iff.2 fun p hp => h.of_mem rfl (List.mem_cons_of_mem _ hp)
    infer_instance
  | case4 => infer_instance

end Marked

instance : Forward (statementRule self) := by unfold statementRule; infer_instance

instance : Gives r (statementRule self) := by
  refine .bindCalm inferInstance fun c _ =>
    .bind' inferInstance inferInstance inferInstance fun n hn => ?_
  have := markDeclared_within hn
  infer_instance

/-! ### Modules -/

theorem rules_sound (fuel : Nat) : (rules fuel).Sound := by
  induction fuel with
  | zero => exact ⟨fun _ _ => Calm.fail, Forward.fail, fun _ => .of_calm' Calm.fail⟩
  | succ fuel ih =>
    refine ⟨fun g hg => ?_, inferInstanceAs (Forward (statementRule _)),
      fun r => inferInstanceAs (Gives r (statementRule _))⟩
    cases g <;> simp only [rules, rule] <;> first | infer_instance | cases hg

/-- The statements of a module have no returns. -/
theorem within_parseModule? {typescript : Bool} {source : Text} {items : List Node}
    (h : parseModule? typescript source = some items) {n : Node} (hn : n ∈ items) :
    Within nowhere n := by
  simp only [parseModule?, Option.bind_eq_bind, Option.bind_eq_some_iff] at h
  obtain ⟨all, hall, -, -, h⟩ := h
  cases h
  have := rules_sound (4 * (source.length + 2))
  have hstart : (startCursor source).toLexeme.Sound := (Lexeme.sound_next _ _).1
  have hwithin : Within nowhere all := (statements_eq_some hstart (Prod.ext hall rfl)).2.mono
    fun _ h => by cases h.1
  exact Within.list_iff.1 hwithin n (List.mem_filter.1 hn).1

end Unhook.Grammar
