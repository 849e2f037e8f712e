import Tern.Proofs.History
import Tern.Proofs.Value.Names

/-!
# Names stay, and constants keep their values

From each machine of a run to every later one, a scope keeps the names it has, and a name that
is a constant there keeps its value. Six kinds of statements and calls write to scopes; they all
do so by declaring names, by assigning to names, or in new scopes.

* `namesKept`: the discipline that names stay and constants keep their values;
* `namesKept_lawful`: every change that programs make obeys it;
* `Session.constants_immutable`: names and constants over the history of a session.
-/

namespace Tern

/-- Scopes keep their names, and constants their values. -/
abbrev namesKept : Discipline := .ofOrder fun m m' => m.heap.Keeps m'.heap

variable {cfg : Settings} {m m' : Machine}

/-- Every change leaves the names and the constants that are there. -/
theorem Heap.lasting_keeps : Heap.Lasting Heap.Keeps where
  refl := .refl
  trans h₁ h₂ := h₁.trans h₂
  countNan _ _ := Heap.keeps_of_same rfl
  newArray _ _ := Heap.keeps_of_same rfl
  newObject _ _ := Heap.keeps_of_same rfl
  newScope := Heap.keeps_newScope
  newClosure _ _ := Heap.keeps_of_same rfl
  setField _ _ _ _ := Heap.keeps_of_same rfl
  setElement _ _ _ _ := Heap.keeps_of_same rfl
  declare hCheck _ := Heap.keeps_bind (Heap.variable_of_checkDeclare hCheck)
  assign hTarget _ := Heap.keeps_bind (Heap.variable_of_assignTarget hTarget)
  withClass _ _ _ parent := Heap.keeps_append (Heap.superScope parent) rfl

theorem namesKept_lawful (cfg : Settings) : namesKept.Lawful cfg := Heap.lasting_keeps.lawful cfg

/-! ## Refused changes -/

/-- An assignment to a constant fails and leaves the machine as it was. -/
theorem assign_constant {env : Env} {name : String} {s : ScopeId} {b : Binding}
    (hFound : m.heap.lookup? env name = some (s, b)) (hConstant : b.constant = true) (v : Value) :
    Eval.assign env name v m = .error (.fault ⟨.assignedConstant name, none⟩) m := by
  unfold Eval.assign
  rw [Eval.consult_bind, Heap.assignTarget_of_constant hFound hConstant]

/-- So does a declaration of a name that is a constant in the scope. -/
theorem declare_constant {env : Env} {name : String} {b : Binding}
    (hFound : (m.heap.scope env.current).lookup name = some b) (hConstant : b.constant = true)
    (v : Value) (constant : Bool) :
    Eval.declare env name v constant m = .error (.fault ⟨.redeclared name, none⟩) m := by
  unfold Eval.declare
  rw [Eval.consult_bind, Heap.checkDeclare_of_constant hFound hConstant]

/-! ## Sessions -/

namespace Session

/-- Names and constants over the history of a session, in whatever steps: every scope keeps its
names and the values of its constants from each machine that the session comes by to every later
one. Whenever a name stands for a constant, an assignment to it fails, and so does a declaration
of a name that is a constant in the innermost scope; the machine is then left as it was. -/
theorem constants_immutable (s : Session) (steps : List Step) :
    (∀ x y, s.Earlier steps x y →
      (∀ i name b, (x.heap.scope i).lookup name = some b → b.constant = true →
        (y.heap.scope i).lookup name = some b) ∧
      ∀ i name, x.heap.Bound i name → y.heap.Bound i name) ∧
    (∀ m env name i b v, m.heap.lookup? env name = some (i, b) → b.constant = true →
      ∃ f : Fault, f.kind = .constAssignment ∧
        Eval.assign env name v m = .error (.fault ⟨f, none⟩) m) ∧
    ∀ m env name b v constant, (m.heap.scope env.current).lookup name = some b →
      b.constant = true → ∃ f : Fault, f.kind = .redeclaration ∧
        Eval.declare env name v constant m = .error (.fault ⟨f, none⟩) m := by
  refine ⟨fun x y hEarlier => ?_, fun m env name i b v hFound hConstant => ?_,
    fun m env name b v constant hFound hConstant => ?_⟩
  · have hKeeps : x.heap.Keeps y.heap :=
      (namesKept_lawful s.settings).grows_of_earlier (Discipline.level_ofHeaps _) hEarlier
    exact ⟨fun i name b => hKeeps.constant, fun i name => hKeeps.bound⟩
  · exact ⟨.assignedConstant name, rfl, assign_constant hFound hConstant v⟩
  · exact ⟨.redeclared name, rfl, declare_constant hFound hConstant v constant⟩

/-- A session whose global scope has one constant. -/
def withConstant : Session :=
  attach .standard (Heap.empty.newScope [("a", ⟨.null, true⟩)]).2 ⟨0, []⟩

/-- After a run that assigns to the constant and declares it again, it is what it was. -/
theorem constants_immutable_withConstant :
    ((withConstant.machine.heap.scope 0).lookup "a" = some ⟨.null, true⟩) ∧
      ((withConstant.run "try { a = 1; } catch (e) { const a = 2; }" none).2.machine.heap.scope
        0).lookup "a" = some ⟨.null, true⟩ := by
  have hEarlier : withConstant.Earlier [.run "try { a = 1; } catch (e) { const a = 2; }" none]
      withConstant.machine (withConstant.next (.run _ none)).machine := .here (.later .here)
  exact ⟨rfl, ((constants_immutable withConstant _).1 _ _ hEarlier).1 0 "a" _ rfl rfl⟩

end Session

end Tern
