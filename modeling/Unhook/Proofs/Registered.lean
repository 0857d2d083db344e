import Mathlib.Data.List.Forall2
import Unhook.Proofs.Passes

/-!
# What effects become

An effect is replaced, where it stands, by one or two statements: one that registers
what is left of its function, and one that registers its cleanup. When the first of them
runs is told by the dependencies alone. It is missing if the function has a cleanup and
no statement besides: of a function only the body is looked at, so whatever its
parameters do when it is called is lost with it.

* `Effect.Becomes`: what a statement becomes;
* `Component.effects_registered`: the statements and the imports of a component whose
  effects have been replaced.
-/

namespace Unhook

namespace Effect

open Node

/-! ### Statements -/

/-- When the function of an effect is called is told by its dependencies. -/
theorem momentOf_cases (arguments : List Node) :
    ((momentOf arguments).name = "onMount" ∧ ∃ s, arguments[1]? = some (.mk .array s [])) ∨
      ((momentOf arguments).name = "afterUpdate" ∧ ∀ s, arguments[1]? ≠ some (.mk .array s [])) := by
  unfold momentOf
  split
  · next s _ => exact .inl ⟨rfl, s, rfl⟩
  · next hnot =>
    refine .inr ⟨rfl, fun s hs => ?_⟩
    rcases arguments with _ | ⟨a, _ | ⟨b, as⟩⟩
    · cases hs
    · cases hs
    · exact hnot a s as (by rw [Option.some.inj hs])

/-- A statement that calls a function by its name, with one argument and no other. -/
def Calls (name : Text) (argument s : Node) : Prop :=
  ∃ sp sp' sp'', s = .mk .expressionStatement sp
    [.mk (.call .plain false) sp' [.mk (.identifier name) sp'' [], Node.absent, argument]]

/-- What a statement becomes, with the names that are called and what they are called with:
    itself, or, if it is an effect, a call for what is left of its function and one for its
    cleanup, as far as there are any. -/
inductive Becomes (s : Node) : (calls : List (Text × Node)) → (run : List Node) → Prop
  | kept (h : ofStatement? s = none) : Becomes s [] [s]
  | effect {hook : Hook} {call f : Node} {callback cleanup : Option Node} {name : Text}
      {calls : List (Text × Node)} {run : List Node} (h : ofStatement? s = some (hook, call))
      (hf : call.firstArgument? = some f) (hfunction : f.isFunction = true)
      (hname : (name = "onMount" ∧ ∃ sp, call.arguments[1]? = some (.mk .array sp [])) ∨
        (name = "afterUpdate" ∧ ∀ sp, call.arguments[1]? ≠ some (.mk .array sp [])))
      (hsplits : Splits f callback cleanup)
      (hcalls : calls =
        (callback.map (name, ·)).toList ++ (cleanup.map (("onDestroy" : Text), ·)).toList)
      (hrun : List.Forall₂ (fun r => Calls r.1 r.2) calls run) : Becomes s calls run

theorem becomes_of_ofCall {s call : Node} {hook : Hook} {e : Effect}
    (hs : ofStatement? s = some (hook, call)) (h : ofCall hook call = .ok e) :
    Becomes s (e.registrations.map fun r => (r.1.name, r.2))
      (e.registrations.map fun r => register r.1 r.2) := by
  obtain ⟨f, hf, hfunction, hmoment, hsplits⟩ := splits_of_ofCall h
  refine .effect hs hf hfunction (momentOf_cases _) hsplits ?_ ?_
  · rw [← hmoment, registrations]
    cases e.callback <;> cases e.cleanup <;> rfl
  · rw [List.forall₂_map_left_iff, List.forall₂_map_right_iff, List.forall₂_same]
    exact fun r _ => ⟨_, _, _, rfl⟩

/-- Statements are replaced one after the other. -/
theorem lower_eq_ok {ss ss' : List Node} {ms : List Lifecycle} (h : lower ss = .ok (ss', ms)) :
    ∃ runs : List (List (Text × Node) × List Node),
      List.Forall₂ (fun s r => Becomes s r.1 r.2) ss runs ∧ ss' = runs.flatMap (·.2) ∧
      ms.map Lifecycle.name = (runs.flatMap (·.1)).map (·.1) := by
  induction ss generalizing ss' ms with
  | nil =>
    cases h
    exact ⟨[], .nil, rfl, rfl⟩
  | cons s ss ih =>
    rw [lower] at h
    split at h
    · next hs =>
      obtain ⟨rest, hrest, h⟩ := of_bind_eq_ok h
      cases h
      obtain ⟨runs, hruns, hss, hms⟩ := ih hrest
      exact ⟨([], [s]) :: runs, .cons (.kept hs) hruns, by rw [hss]; rfl, hms⟩
    · next hook call hs =>
      obtain ⟨e, he, h⟩ := of_bind_eq_ok h
      obtain ⟨rest, hrest, h⟩ := of_bind_eq_ok h
      cases h
      obtain ⟨runs, hruns, hss, hms⟩ := ih hrest
      refine ⟨(_, _) :: runs, .cons (becomes_of_ofCall hs he) hruns, ?_, ?_⟩
      · rw [hss]
        rfl
      · rw [List.map_append, hms, List.flatMap_cons, List.map_append, List.map_map, List.map_map]
        rfl

end Effect

/-! ### Imports -/

/-- New names are added in the order in which they come up first. -/
theorem foldl_insertNew_eq (names l : List Text) :
    names.foldl (fun l name => insertNew name l) l = l ++ (names.filter (· ∉ l)).eraseDups := by
  induction names generalizing l with
  | nil => simp
  | cons name names ih =>
    rw [List.foldl_cons, ih]
    by_cases hname : name ∈ l
    · rw [insertNew, if_pos hname, List.filter_cons_of_neg (by simpa using hname)]
    · -- What is new to the longer list is new to the shorter one, and is not the name.
      have hfilter : names.filter (· ∉ l ++ [name]) =
          (names.filter (· ∉ l)).filter fun b => !b == name := by
        rw [List.filter_filter]
        refine List.filter_congr fun b _ => Bool.eq_iff_iff.2 ?_
        simp [and_comm]
      rw [insertNew, if_neg hname, List.filter_cons_of_pos (by simpa using hname),
        List.eraseDups_cons, hfilter, List.append_assoc]
      rfl

namespace Component

/-- Where the effects of a component are replaced, its body is, in order, what each of its
    statements becomes: the statement itself unless it is an effect, and for an effect a call
    of `onMount` or `afterUpdate`, as its dependencies tell, with what is left of its function,
    and one of `onDestroy` with its cleanup. One of them is there, and the first is missing if
    and only if there is a cleanup and no statement is left in the body of the function. No
    effect is left at any depth. The imports are, in the order in which they come up first,
    the names that are called. -/
theorem effects_registered {c c' : Component} (h : c.lowerEffects = .ok c') :
    (∃ runs : List (List (Text × Node) × List Node),
      List.Forall₂ (fun s r => Effect.Becomes s r.1 r.2) c.body runs ∧
      c'.body = runs.flatMap (·.2) ∧
      c'.lifecycle = c.lifecycle ++ (((runs.flatMap (·.1)).map (·.1)).filter
        (· ∉ c.lifecycle)).eraseDups) ∧
    (∀ f callback cleanup, Effect.Splits f callback cleanup → (callback ≠ none ∨ cleanup ≠ none) ∧
      (callback = none ↔ cleanup ≠ none ∧ Effect.Emptied f)) ∧
    (∀ s ∈ c'.body, ∀ path n, s.at? path = some n → n.isEffectCall = false) ∧
    c' = { c with body := c'.body, lifecycle := c'.lifecycle } := by
  obtain ⟨lowered, hlower, h⟩ := of_bind_eq_ok h
  obtain ⟨body, ms⟩ := lowered
  dsimp only at h
  split at h
  · cases h
  · next hnone =>
    cases h
    obtain ⟨runs, hruns, hbody, hms⟩ := Effect.lower_eq_ok hlower
    rw [foldl_useLifecycle]
    refine ⟨⟨runs, hruns, hbody, ?_⟩, fun f callback cleanup hsplits => ⟨?_, ?_⟩,
      fun s hs path n hn => ?_, rfl⟩
    · rw [foldl_insertNew_eq, hms]
    · exact hsplits.ne_none
    · exact hsplits.callback_eq_none_iff
    · exact Node.eq_false_of_find?_eq_none (Node.findList?_eq_none.1 hnone s hs) hn

/-- Effects of all kinds, with a statement between them. -/
def beatSource : Text :=
  "export default () => \x7b useEffect(() => \x7b start(); return stop; \x7d, []); log();
    useLayoutEffect(() => stop); useEffect(() => beat()); return <p/>; \x7d;"

theorem beat_registered : ∃ c c' : Component,
    compileThrough {} [.props, .state, .placement, .lowering] beatSource = .ok c ∧
    c.lowerEffects = .ok c' ∧ c.body.length = 5 ∧ c.lifecycle = [] ∧
    c'.body.map Node.printStatement = ["onMount(() => \x7b\n\tstart();\n\x7d);".toList,
      "onDestroy(stop);".toList, "log();".toList, "onDestroy(stop);".toList,
      "afterUpdate(() => beat());".toList, "return <p />;".toList] ∧
    c'.lifecycle = ["onMount".toList, "onDestroy".toList, "afterUpdate".toList] ∧
    ∃ runs : List (List (Text × Node) × List Node), runs.length = 5 ∧
      List.Forall₂ (fun s r => Effect.Becomes s r.1 r.2) c.body runs ∧
      c'.body = runs.flatMap (·.2) ∧ ((runs.flatMap (·.1)).map (·.1)).eraseDups = c'.lifecycle := by
  have hsource : ((compileThrough {} [.props, .state, .placement, .lowering]
      beatSource).toOption.bind fun c => c.lowerEffects.toOption.map fun c' =>
        (c.body.length, c.lifecycle, c'.body.map Node.printStatement, c'.lifecycle)) =
      some (5, [], ["onMount(() => \x7b\n\tstart();\n\x7d);".toList, "onDestroy(stop);".toList,
        "log();".toList, "onDestroy(stop);".toList, "afterUpdate(() => beat());".toList,
        "return <p />;".toList], ["onMount".toList, "onDestroy".toList, "afterUpdate".toList]) := by
    rw [(by apply String.toList_ofList : beatSource = _)]
    decide +kernel
  obtain ⟨c, hc, hsource⟩ := of_toOption_bind hsource
  obtain ⟨c', hc', hsource⟩ := of_toOption_map hsource
  obtain ⟨hlength, hnil, hbody, hlifecycle⟩ : _ ∧ _ ∧ _ ∧ _ := by
    simpa only [Prod.mk.injEq] using hsource
  obtain ⟨⟨runs, hruns, hflat, himports⟩, -⟩ := effects_registered hc'
  refine ⟨c, c', hc, hc', hlength, hnil, hbody, hlifecycle, runs,
    hruns.length_eq.symm.trans hlength, hruns, hflat, ?_⟩
  rw [himports, hnil, List.nil_append, List.filter_eq_self.2 fun name _ => by simp]

/-- What the parameters of an effect do is lost, when it has nothing else but a cleanup. -/
theorem parameter_default_lost :
    ((compileThrough {} Pass.all
        "export default () => \x7b
          useEffect((a = start()) => \x7b return stop; \x7d, []); return <p/>; \x7d;"
      ).toOption.map fun c => (c.lifecycle, c.body.map Node.printStatement)) =
      some (["onDestroy".toList], ["onDestroy(stop);".toList, "return <p />;".toList]) := by
  conv in compileThrough _ _ _ =>
    arg 3
    apply String.toList_ofList
  decide +kernel

end Component

end Unhook
