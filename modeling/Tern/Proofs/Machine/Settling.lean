import Tern.Proofs.Machine.Jumps
import Tern.Proofs.Machine.Lockstep
import Tern.Proofs.Machine.Unseen

/-!
# Failures that have settled

A failure leaves an expression as a signal, and the next statement around it makes it a throw. Which
statement that is shows in nothing but the place of the error. So two computations are the same to
all that runs next if their ends are the same once the failures have settled: a signal that can be
thrown is thrown, and throws have no places.

* `Eval.settled`: a computation whose failures have settled;
* `Eval.settled_guarded_bind`: it makes no difference which part of it is guarded;
* `Simulation.tracks_settled_bind`: following a computation up to the places of its failures.
-/

namespace Tern

/-- The end of a statement without the places of errors. -/
def Completion.bare : Completion → Completion
  | .throw t => .throw t.bare
  | c => c

theorem Signal.bare_toThrown? (s : Signal) (span : Option Span) :
    (s.toThrown? span).map Thrown.bare = (s.toThrown? none).map Thrown.bare := by
  cases s with
  | fault e =>
    obtain ⟨fault, place⟩ := e
    cases place <;> rfl
  | _ => rfl

/-! ## Settled computations -/

namespace Eval

variable {α : Type}

/-- A result in which what can be thrown is thrown, and nothing has a place. -/
def settle : EStateM.Result Signal Machine Completion → EStateM.Result Signal Machine Completion
  | .ok c m => .ok c.bare m
  | .error s m =>
    match (s.toThrown? none).map Thrown.bare with
    | some t => .ok (.throw t) m
    | none => .error s m

/-- A computation whose failures have settled. -/
def settled (x : Eval Completion) : Eval Completion := fun m => settle (x m)

/-- A continuation that lets throws pass. -/
def PassesThrows (f : Completion → Eval Completion) : Prop := ∀ t, f (.throw t) = pure (.throw t)

/-- A guard has no effect but to settle a failure early. -/
theorem settled_guarded_bind (span : Option Span) (x : Eval Completion)
    {f : Completion → Eval Completion} (hf : PassesThrows f) :
    settled (guarded span x >>= f) = settled (x >>= f) := by
  funext m
  change settle (EStateM.bind (guarded span x) f m) = settle (EStateM.bind x f m)
  unfold EStateM.bind guarded
  cases x m with
  | ok c k => rfl
  | error s k =>
    have hBare := s.bare_toThrown? span
    dsimp only [settle]
    rw [← hBare]
    cases hThrown : s.toThrown? span with
    | some t =>
      change settle (f (.throw t) k) = .ok (.throw t.bare) k
      rw [hf]
      rfl
    | none =>
      rw [hThrown] at hBare
      change settle (.error s k) = .error s k
      dsimp only [settle]
      rw [← hBare]
      rfl

theorem settled_guarded (span : Option Span) (x : Eval Completion) :
    settled (guarded span x) = settled x := by
  have hPure := settled_guarded_bind span x (f := pure) fun _ => rfl
  rwa [bind_pure, bind_pure] at hPure

theorem settled_enter_bind (env : Env) (names : Scope) (f : Env → Eval Completion) :
    settled (enter env names >>= f) = enter env names >>= fun inner => settled (f inner) := rfl

theorem bind_of_ok {β : Type} {x : Eval α} {f : α → Eval β} {a : α} {m m' : Machine}
    (h : x m = .ok a m') : (x >>= f) m = f a m' := by
  change EStateM.bind x f m = _
  unfold EStateM.bind
  rw [h]

/-! ## Computations out of steps -/

/-- The computation uses up its steps, whatever it starts from. -/
def Spent (x : Eval α) : Prop := ∀ m, ∃ m', x m = .error .exhausted m'

theorem Spent.bind {β : Type} {x : Eval α} (hx : Spent x) (f : α → Eval β) : Spent (x >>= f) := by
  intro m
  obtain ⟨m', hRun⟩ := hx m
  refine ⟨m', ?_⟩
  change EStateM.bind x f m = _
  unfold EStateM.bind
  rw [hRun]

theorem Spent.settled {x : Eval Completion} (hx : Spent x) : Spent (settled x) := by
  intro m
  obtain ⟨m', hRun⟩ := hx m
  refine ⟨m', ?_⟩
  unfold Eval.settled
  rw [hRun]
  rfl

theorem spent_run_zero (cfg : Settings) (t : Task) : Spent (run cfg 0 t) := fun m => ⟨m, rfl⟩

end Eval

/-! ## Following a settled computation -/

namespace Disguise

variable (V : Disguise)

theorem bare_thrown (t : Thrown) : (V.thrown t).bare = t.bare := by
  obtain ⟨v, e, span⟩ := t
  cases e <;> rfl

/-- A signal in disguise is thrown as the signal is, up to places. -/
theorem bare_signal (s : Signal) :
    ((V.signal s).toThrown? none).map Thrown.bare = (s.toThrown? none).map Thrown.bare := by
  have hThrown := V.signal_toThrown? s none
  rw [V.unplaced] at hThrown
  rw [hThrown, Option.map_map]
  exact congrArg (Option.map · _) (funext V.bare_thrown)

end Disguise

namespace Simulation

open Eval

variable {α β : Type} {S : Simulation} {cfg cfg' : Settings} {w : S.World}
  {Q : S.World → α → β → Prop} {x : Eval α} {y : Eval β}

theorem tracks_of_spent (hSpent : y.Spent) (hTires : S.secondMayTire) : S.Tracks w Q x y := by
  intro m m' hm
  obtain ⟨k, hRun⟩ := hSpent m'
  rw [hRun]
  exact .second hTires

/-- What the first computation always returns. -/
theorem tracks_returns {P : α → Prop} (hx : S.Tracks w Q x y) (hReturns : x.Returns P) :
    S.Tracks w (fun w a b => Q w a b ∧ P a) x y := by
  intro m m' hm
  have hEnds := hx m m' hm
  generalize hFirst : x m = r at hEnds ⊢
  generalize y m' = r' at hEnds ⊢
  cases hEnds with
  | ok later same machines => exact .ok later ⟨same, hReturns _ _ _ hFirst⟩ machines
  | error later machines => exact .error later machines
  | first tires => exact .first tires
  | second tires => exact .second tires

variable (L : S.Lawful cfg cfg')
include L

omit L in
theorem ends_settle_error {s : Signal} {w' : S.World} {m m' : Machine} (hLater : S.Later w w')
    (hm : S.Machines w' m m') :
    S.Ends w S.Same (settle (.error s m)) (settle (.error (S.veil.signal s) m')) := by
  dsimp only [settle]
  rw [Disguise.bare_signal]
  cases (s.toThrown? none).map Thrown.bare with
  | some t => exact .ok hLater rfl hm
  | none => exact .error hLater hm

/-- One computation after another, where failures are followed up to their places. -/
theorem tracks_settled_bind {f : α → Eval Completion} {g : β → Eval Completion}
    (hx : S.Tracks w Q x y) (hf : ∀ w', S.Later w w' → ∀ a b, Q w' a b →
      S.Tracks w' S.Same (settled (f a)) (settled (g b))) :
    S.Tracks w S.Same (settled (x >>= f)) (settled (y >>= g)) := by
  intro m m' hm
  have hEnds := hx m m' hm
  change S.Ends w S.Same (settle (EStateM.bind x f m)) (settle (EStateM.bind y g m'))
  unfold EStateM.bind
  generalize x m = r at hEnds ⊢
  generalize y m' = r' at hEnds ⊢
  cases hEnds with
  | ok later same machines => exact Ends.earlier L later (hf _ later _ _ same _ _ machines)
  | error later machines => exact ends_settle_error later machines
  | first tires => exact .first tires
  | second tires =>
    cases r with
    | ok => exact .second tires
    | error => exact .second tires

theorem tracks_settled_pure (c : Completion) :
    S.Tracks w S.Same (settled (pure c)) (settled (pure c)) :=
  tracks_pure L (a := c.bare) rfl

end Simulation

end Tern
