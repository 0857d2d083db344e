import Unhook.Component.Export
import Unhook.Component.Props
import Unhook.Component.State
import Unhook.Document
import Unhook.Hook.Effect
import Unhook.Hook.Memo
import Unhook.Markup.Placement

/-!
# Compilation

A source is read as a module, its component is found, and then it passes through
the steps of compilation, in order. The first problem ends it.

* `Pass.run`: what each step does;
* `compile`: the document of a source, or why there is none;
* `trace`: the same, step by step.
-/

namespace Unhook

/-- The steps of compilation between finding the component and writing it. -/
inductive Pass
  | props | state | placement | lowering | hooks | inlining
  deriving DecidableEq, Repr

namespace Pass

/-- The steps in order. -/
def all : List Pass := [props, state, placement, lowering, hooks, inlining]

/-- What a step makes of a component. -/
def run (typescript : Bool) (c : Component) : Pass → Except Problem Component
  | props => c.bindProps typescript
  | state => c.extractState typescript
  | placement => c.checkPlacement
  | lowering => .ok c.lowerMarkup
  | hooks => do (← c.lowerEffects).unmemo
  | inlining => .ok c.inlineMarkup

end Pass

/-- The statements of a source. -/
def parse (options : Options) (source : Text) : Except Problem (List Node) :=
  match Grammar.parseModule? options.typescript source with
  | some module => .ok module
  | none => .error { cause := .unreadable }

/-- The component of a source that has passed through some steps. -/
def compileThrough (options : Options) (passes : List Pass) (source : Text) :
    Except Problem Component := do
  let module ← parse options source
  let c ← Component.ofModule source.byteLength module
  passes.foldlM (fun c p => p.run options.typescript c) c

/-- The document of a source, or the problem that it has. -/
def compile? (options : Options) (source : Text) : Except Problem Document := do
  (← compileThrough options Pass.all source).document options

/-- The document of a source, or the report of why there is none. -/
def compile (options : Options) (source : Text) : Except Failure Document :=
  (compile? options source).mapError (·.failure source options)

/-- The text of the document of a source, with all options as they are by
    default. -/
def compileToText (source : Text) : Except Failure Text := (compile {} source).map (·.code)

/-- What a step of compilation has reached. -/
inductive Step
  | parsed (module : List Node)
  | located (c : Component)
  | passed (p : Pass) (c : Component)
  | finished (d : Document)

/-- What is reached from a component by the steps that are left, and the problem
    that ends them. -/
def traceFrom (options : Options) : List Pass → Component → List Step × Option Problem
  | [], c =>
    match c.document options with
    | .ok d => ([.finished d], none)
    | .error p => ([], some p)
  | pass :: passes, c =>
    match pass.run options.typescript c with
    | .ok c =>
      let (steps, p) := traceFrom options passes c
      (.passed pass c :: steps, p)
    | .error p => ([], some p)

/-- What is reached by each step of the compilation of a source, and the problem
    that ends it. -/
def traceSteps (options : Options) (source : Text) : List Step × Option Problem :=
  match parse options source with
  | .error p => ([], some p)
  | .ok module =>
    match Component.ofModule source.byteLength module with
    | .error p => ([.parsed module], some p)
    | .ok c =>
      let (steps, p) := traceFrom options Pass.all c
      (.parsed module :: .located c :: steps, p)

/-- What is reached by each step of the compilation of a source, and the report
    of why it goes no further. -/
def trace (options : Options) (source : Text) : List Step × Option Failure :=
  let (steps, p) := traceSteps options source
  (steps, p.map (·.failure source options))

/-- Names in the order of their code points. -/
def sortNames (names : List Text) : List Text := names.mergeSort Text.le

end Unhook
