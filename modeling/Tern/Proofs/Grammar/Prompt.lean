import Tern.Proofs.Grammar.Stopping

/-!
# Targets looked at in time

The parser looks at the target of an assignment when it has read the value. A text that stops inside
the value may therefore be reported incomplete though nothing can complete it. The prompt parser is
the same parser, except that it looks at the target as soon as it sees the sign of the assignment.

* `promptAssignment`, `promptLevel`: the prompt parser;
* `promptLevel_sound`: it stays within the grammar;
* `trails_promptLevel`: its run on a row that stops trails that of the parser on a row that goes on.
-/

namespace Tern

namespace Grammar

open Tern.Parser

/-- An assignment whose target is looked at before its value is read. -/
def promptAssignment (inner : Level) (ctx : Context) : Parser Expr := do
  let start ← peek
  let target ← logicOr inner ctx
  if ← check .equal then
    let equals ← advance
    if target.isTarget then assigned inner ctx start equals target
    else failAt equals .badTarget
  else pure target

/-- The parsers of the prompt parser with room for a number of further levels. -/
def promptLevel : Nat → Level
  | 0 => level 0
  | room + 1 =>
    let inner := promptLevel room
    ⟨promptAssignment inner, unary inner, declaration inner⟩

variable {held : Prop} {l l' : Level} {g : Forms} {ctx : Context}

/-- A target that can be assigned to can be assigned any value that completes the row. -/
theorem completes_promptAssignment (hInner : CompletesLevel held l g) (f : Terminal) :
    Completes held False f (promptAssignment l ctx) fun xs _ e =>
      Form.Expression g ctx xs e := by
  refine completes_peek_bind fun start _ => ?_
  refine completes_bind (completes_logicOr hInner f) fun target xs n hTarget => ?_
  refine completes_check_bind fun b hb => completes_ite (fun hTrue => ?_) fun _ => ?_
  · obtain rfl := Terminal.eq_mark (by decide) (hb.mp hTrue)
    refine completes_advance_bind (by decide) fun equals n hEquals =>
      completes_ite (fun hIs => ?_) fun _ => ?_
    · refine completes_bind (hInner.expression ctx n) fun value ys n hValue => ?_
      refine completes_spanFrom_bind fun s => ?_
      split
      · next e hAssign => exact completes_pure (by simpa using .assign s hTarget hValue hAssign)
      · next hNone =>
        have hSome := isSome_assignTo? target value s
        rw [hNone, hIs] at hSome
        cases hSome
    · exact completes_refused (by rw [← Token.kind_terminal, hEquals]; decide)
  · exact completes_pure (by simpa using .value hTarget)

theorem promptLevel_sound (room : Nat) : SoundLevel (promptLevel room) (forms room) := by
  induction room with
  | zero => exact level_sound 0
  | succ room ih =>
    exact ⟨fun _ f => (completes_promptAssignment ih.completes f).takes,
      fun _ f => (completes_unary ih.completes f).takes,
      fun _ f => (completes_declaration ih.completes f).takes⟩

theorem starves_promptAssignment : Starves (promptAssignment l ctx) :=
  rests_peek_bind fun _ _ => starves_logicOr.bind

theorem trails_promptAssignment (hl : TrailsLevel l l') :
    Trails Abreast (promptAssignment l ctx) (assignment l' ctx) SameTarget fun _ => True := by
  rw [assignment_eq]
  refine trails_peek_bind (fun _ _ => starves_logicOr.bind) fun start start' _ _ =>
    trails_from ?_ fun _ _ h => h.abreast
  have hOver : ∀ target : Expr, Rests (pure target : Parser Expr) fun _ => True := fun _ =>
    rests_pure trivial
  refine trails_bind (shadows_logicOr hl).trails (fun target target' hTarget => ?_) fun target _ =>
    rests_check_bind (by decide) (hOver target)
  refine trails_check_bind (by decide) (hOver target) fun t t' c _ => ?_
  refine trails_ite (fun _ => ?_) fun _ => trails_pure hTarget fun _ _ h => h.abreast
  refine trails_advance_bind fun _ => ?_
  cases hIs : target.isTarget with
  | true => exact trails_assigned hl hTarget
  | false => exact trails_of_fails (fails_assigned (hTarget.trans hIs))

theorem trails_promptLevel (room : Nat) : TrailsLevel (promptLevel room) (level room) := by
  induction room with
  | zero => exact trails_level 0
  | succ room ih =>
    have hLeft := promptLevel_sound (room + 1)
    have hRight := level_sound (room + 1)
    exact ⟨fun ctx => ⟨trails_promptAssignment ih, starves_promptAssignment,
        hLeft.some_expression ctx, hRight.some_expression ctx⟩,
      fun _ => (shadows_unary ih).mono fun _ _ _ => trivial,
      fun ctx => ⟨trails_declaration ih, starves_declaration (ih.expression ctx).starves,
        hLeft.some_declaration ctx, hRight.some_declaration ctx⟩,
      ⟨_, hLeft⟩, ⟨_, hRight⟩⟩

end Grammar

end Tern
