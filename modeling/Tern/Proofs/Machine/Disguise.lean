import Tern.Proofs.Machine.Definition
import Tern.Proofs.Syntax.Respan

/-!
# Machines in disguise

A run does not look at the spans of the code it works on, nor at the log, nor at the number of
statements run so far. A `Disguise` changes all of these at once, in a machine and in whatever
comes out of it. A computation is mirrored by another if, from a machine in disguise, the other
does what the first does, in disguise.

* `Disguise`: how spans, the log and the count are changed;
* `Disguise.Mirrors`: one computation does in disguise what another does;
* `Disguise.mirrors_bind`: computations one after another.
-/

namespace Tern

/-- The settings with another logger. -/
def Settings.withLogger (cfg : Settings) (l : Logger) : Settings := { cfg with logger := l }

/-- How spans, the log and the number of statements run so far are changed. An error keeps the
first place it is given, and does so in disguise as well. -/
structure Disguise where
  span : Option Span → Option Span
  log : Array String → Array String
  count : Nat → Nat
  unplaced : span none = none
  settled : ∀ place s, (span (some place)).or (span s) = span (some place)

namespace Disguise

variable (V : Disguise) {α β : Type}

/-- A runtime error in disguise. -/
def error (e : RuntimeError) : RuntimeError := ⟨e.fault, V.span e.span⟩

/-- A value on its way out, in disguise. -/
def thrown (t : Thrown) : Thrown := ⟨t.value, t.error.map V.error, V.span t.span⟩

/-- What leaves an expression, in disguise. -/
def signal : Signal → Signal
  | .fault e => .fault (V.error e)
  | .thrown t => .thrown (V.thrown t)
  | s => s

/-- The end of a statement, in disguise. -/
def completion : Completion → Completion
  | .throw t => .throw (V.thrown t)
  | c => c

/-- A function in disguise. -/
def closure (c : Closure) : Closure := { c with definition := c.definition.respan V.span }

/-- A heap in disguise. -/
def heap (h : Heap) : Heap := { h with closures := h.closures.map V.closure }

/-- A machine in disguise. -/
def machine (m : Machine) : Machine :=
  { m with heap := V.heap m.heap, log := V.log m.log, executed := V.count m.executed }

/-- The end of a computation in disguise, where `r` disguises the result. -/
def result (r : α → β) : EStateM.Result Signal Machine α → EStateM.Result Signal Machine β
  | .ok a m => .ok (r a) (V.machine m)
  | .error s m => .error (V.signal s) (V.machine m)

/-- From a machine in disguise `y` does what `x` does, in disguise. -/
def Mirrors (x : Eval α) (y : Eval β) (r : α → β) : Prop :=
  ∀ m, y (V.machine m) = V.result r (x m)

/-- The logger writes in disguise what the logger of the settings writes. -/
def Suits (cfg : Settings) (l : Logger) : Prop :=
  ∀ log message, V.log (log ++ (cfg.logger.lines .debug message).toArray) =
    V.log log ++ (l.lines .debug message).toArray

variable {V}

/-! ## Errors and places -/

theorem error_attach (e : RuntimeError) (span : Option Span) :
    V.error (e.attach span) = (V.error e).attach (V.span span) := by
  obtain ⟨fault, place⟩ := e
  cases place with
  | none => simp [RuntimeError.attach, error, V.unplaced]
  | some place =>
    have hSettled := V.settled place span
    unfold RuntimeError.attach error
    cases hPlace : V.span (some place) with
    | some p => rfl
    | none =>
      rw [hPlace, Option.none_or] at hSettled
      rw [hSettled]

theorem signal_locate (s : Signal) (span : Option Span) :
    V.signal (s.locate span) = (V.signal s).locate (V.span span) := by
  cases s with
  | fault e => exact congrArg Signal.fault (error_attach e span)
  | _ => rfl

theorem signal_toThrown? (s : Signal) (span : Option Span) :
    (V.signal s).toThrown? (V.span span) = (s.toThrown? span).map V.thrown := by
  cases s with
  | fault e =>
    change some (Signal.thrownBy ((V.error e).attach (V.span span))) = _
    rw [← error_attach]
    rfl
  | _ => rfl

/-! ## Heaps -/

theorem definition_default :
    (default : Closure).definition.respan V.span = (default : Closure).definition := by
  change FuncDef.respan V.span ⟨⟨"", none⟩, [], ⟨[], none⟩, none⟩ = ⟨⟨"", none⟩, [], ⟨[], none⟩, none⟩
  simp [FuncDef.respan, Block.respan, Ident.respan, V.unplaced]

theorem closure_default : V.closure default = default := by
  unfold closure
  rw [definition_default]

@[simp] theorem closure_heap (h : Heap) (id : FuncId) :
    (V.heap h).closure id = V.closure (h.closure id) := by
  unfold Heap.closure heap
  by_cases hId : id < h.closures.size
  · simp [Array.getD, hId]
  · simp [Array.getD, hId, closure_default]

@[simp] theorem newClosure_heap (h : Heap) (c : Closure) :
    (V.heap h).newClosure (V.closure c) =
      ((h.newClosure c).1, V.heap (h.newClosure c).2) := by
  simp [Heap.newClosure, heap]

theorem find?_heap (h : Heap) (name : String) (ids : List ScopeId) :
    (V.heap h).find? name ids = h.find? name ids := by
  induction ids with
  | nil => rfl
  | cons id rest ih =>
    unfold Heap.find?
    rw [ih]
    rfl

@[simp] theorem get_heap (h : Heap) (env : Env) (name : String) :
    (V.heap h).get env name = h.get env name := by
  unfold Heap.get Heap.lookup?
  rw [find?_heap]

@[simp] theorem assignTarget_heap (h : Heap) (env : Env) (name : String) :
    (V.heap h).assignTarget env name = h.assignTarget env name := by
  unfold Heap.assignTarget Heap.lookup?
  rw [find?_heap]

/-! ## Computations -/

section

variable {γ δ : Type} {x : Eval α} {y : Eval β} {r : α → β} {q : γ → δ}

theorem mirrors_pure {a : α} {b : β} (h : b = r a) : V.Mirrors (pure a) (pure b) r := by
  intro m
  rw [h]
  rfl

theorem mirrors_bind {f : α → Eval γ} {g : β → Eval δ} (hx : V.Mirrors x y r)
    (hf : ∀ a, V.Mirrors (f a) (g (r a)) q) : V.Mirrors (x >>= f) (y >>= g) q := by
  intro m
  change EStateM.bind y g (V.machine m) = V.result q (EStateM.bind x f m)
  unfold EStateM.bind
  rw [hx m]
  cases x m with
  | ok a m' => exact hf a m'
  | error s m' => rfl

theorem mirrors_ite {c c' : Prop} [Decidable c] [Decidable c'] {x' : Eval α} {y' : Eval β}
    (hSame : c' ↔ c) (hx : V.Mirrors x y r) (hx' : V.Mirrors x' y' r) :
    V.Mirrors (if c then x else x') (if c' then y else y') r := by
  by_cases h : c
  · rwa [if_pos h, if_pos (hSame.mpr h)]
  · rwa [if_neg h, if_neg (fun h' => h (hSame.mp h'))]

end

end Disguise

end Tern
