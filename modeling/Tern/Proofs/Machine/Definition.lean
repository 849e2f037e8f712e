import Tern.Proofs.Machine.Discipline

/-!
# What definitions and calls leave behind

A class definition and the entry to a call are several changes of the heap in a row. Here each
is given as one: which cells it adds, and what they hold.

* `Eval.methods_eq`: the methods of a class are closures added in order;
* `Eval.final_defineClass`: a class definition changes nothing, or adds the class whole;
* `Eval.enterCall_func`, `Eval.enterCall_method`: the scopes that a call adds.
-/

namespace Tern

/-! ## Classes -/

/-- The function that a method is, in the scopes of its class. -/
def FuncDef.toMethod (env : Env) (f : FuncDef) : Closure :=
  ⟨f, env, f.id.name = Eval.initializerName⟩

/-- The methods of a class by name, when the first of them gets the number `n`. -/
def methodTable : Nat → List FuncDef → Table FuncId → Table FuncId
  | _, [], done => done
  | n, f :: rest, done => methodTable (n + 1) rest (Table.set f.id.name n done)

namespace Heap

/-- The scopes in which the methods of a class stand: those of the class, behind one for
`super` if there is a superclass. -/
def methodEnv (h : Heap) (env : Env) : Option Class → Env
  | some _ => env.extend h.scopes.size
  | none => env

/-- The class that a definition makes. -/
def classOf (h : Heap) (c : ClassDef) : Option Class → Class
  | some p => .derived ⟨h.classes, c.id.name, methodTable h.closures.size c.methods []⟩ p
  | none => .base ⟨h.classes, c.id.name, methodTable h.closures.size c.methods []⟩

/-- The scope of `super`, if there is a superclass. -/
def superScope : Option Class → List Scope
  | some p => [[("super", ⟨.cls p, true⟩)]]
  | none => []

/-- The heap with the cells of a new class. -/
def withClass (h : Heap) (env : Env) (c : ClassDef) (parent : Option Class) : Heap :=
  { h with
    scopes := h.scopes ++ superScope parent
    closures := h.closures ++ c.methods.map (·.toMethod (h.methodEnv env parent))
    classes := h.classes + 1 }

end Heap

namespace Eval

theorem consult_bind {α β : Type} (f : Heap → Except Fault α) (k : α → Eval β) (m : Machine) :
    (consult f >>= k) m =
      match f m.heap with
      | .ok a => k a m
      | .error e => .error (.fault ⟨e, none⟩) m := by
  change EStateM.bind (consult f) k m = _
  unfold EStateM.bind consult
  cases hf : f m.heap <;> rfl

theorem methods_eq (env : Env) (fs : List FuncDef) (done : Table FuncId) (m : Machine) :
    methods env fs done m = .ok (methodTable m.heap.closures.size fs done)
      (m.withHeap { m.heap with closures := m.heap.closures ++ fs.map (·.toMethod env) }) := by
  induction fs generalizing m done with
  | nil => simp [methods, methodTable, Machine.withHeap, pure, EStateM.pure]
  | cons f rest ih =>
    have hStep : methods env (f :: rest) done m =
        methods env rest (Table.set f.id.name m.heap.closures.size done)
          (m.withHeap { m.heap with closures := m.heap.closures.push (f.toMethod env) }) := rfl
    rw [hStep, ih, Machine.heap_withHeap, Array.size_push]
    rfl

/-- The superclass that a class definition finds. -/
theorem superclass_cases (env : Env) (c : ClassDef) (m : Machine) :
    (∃ s, superclass env c m = .error s m) ∨
      ∃ parent, superclass env c m = .ok parent m ∧ parent.isSome = c.superclass.isSome ∧
        ∀ p ∈ parent, ∃ id ∈ c.superclass, m.heap.get env id.name = .ok (.cls p) := by
  unfold superclass
  cases hParent : c.superclass with
  | none => exact .inr ⟨none, rfl, rfl, by simp⟩
  | some id =>
    dsimp only
    unfold lookup
    rw [consult_bind]
    cases hGet : m.heap.get env id.name with
    | error e => exact .inl ⟨_, rfl⟩
    | ok v =>
      cases v with
      | cls p => exact .inr ⟨some p, rfl, rfl, by simpa using hGet⟩
      | _ => exact .inl ⟨_, rfl⟩

/-- A class definition with its superclass at hand. -/
theorem defineClass_eq {env : Env} {c : ClassDef} {m : Machine} {parent : Option Class}
    (h : superclass env c m = .ok parent m) :
    defineClass env c m = declare env c.id.name (.cls (m.heap.classOf c parent)) false
      (m.withHeap (m.heap.withClass env c parent)) := by
  have hRest : ∀ methodEnv m₁, (do
      let table ← methods methodEnv c.methods []
      let value ← newClass c.id.name parent table
      declare env c.id.name (.cls value) false : Eval Unit) m₁ =
      declare env c.id.name (.cls (m₁.heap.classOf c parent)) false
        (m₁.withHeap { m₁.heap with
          closures := m₁.heap.closures ++ c.methods.map (·.toMethod methodEnv)
          classes := m₁.heap.classes + 1 }) := by
    intro methodEnv m₁
    change EStateM.bind (methods methodEnv c.methods []) _ m₁ = _
    unfold EStateM.bind
    rw [methods_eq]
    cases parent <;> rfl
  change EStateM.bind (superclass env c) _ m = _
  unfold EStateM.bind
  rw [h]
  cases parent with
  | none =>
    refine (hRest env m).trans ?_
    simp [Heap.withClass, Heap.superScope, Heap.methodEnv]
  | some p =>
    refine (hRest (env.extend m.heap.scopes.size)
      (m.withHeap (m.heap.newScope [("super", ⟨.cls p, true⟩)]).2)).trans ?_
    simp [Heap.withClass, Heap.superScope, Heap.methodEnv, Machine.withHeap, Heap.newScope,
      Heap.classOf]

theorem final_declare (env : Env) (name : String) (v : Value) (constant : Bool) (m : Machine) :
    (declare env name v constant).final m = m ∨
      m.heap.checkDeclare env name = .ok () ∧
        (declare env name v constant).final m =
          m.withHeap (m.heap.bind env.current name ⟨v, constant⟩) := by
  unfold final declare
  rw [consult_bind]
  cases h : m.heap.checkDeclare env name with
  | ok => exact .inr ⟨rfl, rfl⟩
  | error e => exact .inl rfl

/-- A class definition without a superclass to find changes nothing. Any other adds the class
and then declares it, if its name is free. -/
theorem final_defineClass (env : Env) (c : ClassDef) (m : Machine) :
    (defineClass env c).final m = m ∨
      ∃ parent : Option Class, parent.isSome = c.superclass.isSome ∧
        (∀ p ∈ parent, ∃ id ∈ c.superclass, m.heap.get env id.name = .ok (.cls p)) ∧
        ((defineClass env c).final m = m.withHeap (m.heap.withClass env c parent) ∨
          (m.heap.withClass env c parent).checkDeclare env c.id.name = .ok () ∧
          (defineClass env c).final m = m.withHeap ((m.heap.withClass env c parent).bind
            env.current c.id.name ⟨.cls (m.heap.classOf c parent), false⟩)) := by
  rcases superclass_cases env c m with ⟨s, hError⟩ | ⟨parent, hOk, hSome, hParent⟩
  · left
    have hRun : defineClass env c m = .error s m := by
      change EStateM.bind (superclass env c) _ m = _
      rw [EStateM.bind, hError]
    rw [final, hRun]
  · refine .inr ⟨parent, hSome, hParent, ?_⟩
    have hFinal : (defineClass env c).final m =
        (declare env c.id.name (.cls (m.heap.classOf c parent)) false).final
          (m.withHeap (m.heap.withClass env c parent)) := by
      rw [final, final, defineClass_eq hOk]
    rw [hFinal]
    exact final_declare env c.id.name (.cls (m.heap.classOf c parent)) false _

/-- A class definition changes nothing but the heap. -/
theorem exists_final_defineClass (env : Env) (c : ClassDef) (m : Machine) :
    ∃ h, (defineClass env c).final m = m.withHeap h := by
  rcases final_defineClass env c m with hSame | ⟨parent, -, -, hFinal | ⟨-, hFinal⟩⟩
  · exact ⟨m.heap, hSame⟩
  · exact ⟨_, hFinal⟩
  · exact ⟨_, hFinal⟩

/-! ## Calls -/

/-- The scope of the parameters of a call. -/
def paramScope (f : FuncDef) (args : List Value) : Scope :=
  Table.ofList ((f.params.map (·.name)).zip (args.map (⟨·, false⟩)))

theorem enterCall_func (closure : Closure) (args : List Value) (m : Machine) :
    enterCall closure none args m = .ok (closure.env.extend m.heap.scopes.size)
      (m.withHeap (m.heap.newScope (paramScope closure.definition args)).2) :=
  rfl

theorem enterCall_method (closure : Closure) (o : ObjectId) (args : List Value) (m : Machine) :
    enterCall closure (some o) args m =
      .ok ((closure.env.extend m.heap.scopes.size).extend (m.heap.scopes.size + 1))
        (m.withHeap { m.heap with
          scopes := (m.heap.scopes.push [("this", ⟨.object o, true⟩)]).push
            (paramScope closure.definition args) }) := by
  have hSize : (m.heap.scopes.push [("this", ⟨.object o, true⟩)]).size =
      m.heap.scopes.size + 1 := by simp
  rw [← hSize]
  rfl

/-- Entering a call changes nothing but the heap. -/
theorem exists_of_enterCall {closure : Closure} {self : Option ObjectId} {args : List Value}
    {env : Env} {m m' : Machine} (h : enterCall closure self args m = .ok env m') :
    ∃ heap, m' = m.withHeap heap := by
  cases self with
  | none =>
    rw [enterCall_func] at h
    cases h
    exact ⟨_, rfl⟩
  | some o =>
    rw [enterCall_method] at h
    cases h
    exact ⟨_, rfl⟩

end Eval

end Tern
