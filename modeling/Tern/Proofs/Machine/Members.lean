import Tern.Proofs.History
import Tern.Proofs.Machine.Equality
import Tern.Proofs.Value.Growth

/-!
# Members, read and called

A member can be read, and it can be called at once; the two look it up separately. Here they are
compared. For an instance that has the member, a call of it is a read followed by a call of what
was read. Where the instance lacks the member the read gives null and the call fails, and where
there is no instance both fail, before any argument is evaluated.

An instance stays of its class, so the methods that it has stay what they are.

* `classesKept`: the discipline that instances stay of their classes;
* `run_callMember`: a call of a member as a read and a call;
* `callMember_eq_readThenCall`: reads and calls over the history of a session.
-/

namespace Tern

/-! ## Instances stay of their classes -/

/-- Every instance is there still and of the same class. -/
structure Heap.KeepsClasses (h h' : Heap) : Prop where
  size : h.objects.size ≤ h'.objects.size
  cls : ∀ i < h.objects.size, (h'.object i).cls = (h.object i).cls

namespace Heap

variable {h h' : Heap} {id : ObjectId} {name : String} {f : FuncId}

theorem KeepsClasses.refl (h : Heap) : h.KeepsClasses h := ⟨Nat.le_refl _, fun _ _ => rfl⟩

theorem KeepsClasses.trans {h₁ h₂ h₃ : Heap} (h : h₁.KeepsClasses h₂) (h' : h₂.KeepsClasses h₃) :
    h₁.KeepsClasses h₃ where
  size := Nat.le_trans h.size h'.size
  cls i hi := by rw [h'.cls i (Nat.lt_of_lt_of_le hi h.size), h.cls i hi]

theorem keepsClasses_of_extends (hExtends : h.Extends h') : h.KeepsClasses h' :=
  ⟨hExtends.objects, hExtends.cls⟩

/-- A change that leaves instances alone. -/
theorem keepsClasses_of_same (hObjects : h'.objects = h.objects) : h.KeepsClasses h' := by
  refine ⟨Nat.le_of_eq (congrArg Array.size hObjects.symm), fun i _ => ?_⟩
  rw [object, object, hObjects]

/-- What has a method is an instance that was made. -/
theorem lt_of_method? (hMethod : h.method? id name = some f) : id < h.objects.size := by
  refine Nat.lt_of_not_le fun hSize => ?_
  have hDefault : h.object id = default := by
    rw [object, Array.getD, dif_neg (Nat.not_lt.mpr hSize)]
  rw [method?, hDefault] at hMethod
  cases hMethod

theorem KeepsClasses.method? (hKeeps : h.KeepsClasses h') (hMethod : h.method? id name = some f) :
    h'.method? id name = some f := by
  rw [Heap.method?, hKeeps.cls id (lt_of_method? hMethod)]
  exact hMethod

/-- A field hides the methods of its name. -/
theorem member?_of_field {v : Value} (hField : h.field? id name = some v) :
    h.member? id name = some v := by
  rw [member?, hField]

theorem member?_of_method (hField : h.field? id name = none)
    (hMethod : h.method? id name = some f) : h.member? id name = some (.bound f id) := by
  rw [member?, hField, hMethod]
  rfl

end Heap

/-- Instances stay of their classes. -/
abbrev classesKept : Discipline := .ofOrder fun m m' => m.heap.KeepsClasses m'.heap

variable {cfg : Settings} {m m' : Machine}

theorem Heap.lasting_keepsClasses : Heap.Lasting Heap.KeepsClasses where
  refl := .refl
  trans h₁ h₂ := h₁.trans h₂
  countNan _ _ := Heap.keepsClasses_of_same rfl
  newArray _ _ := Heap.keepsClasses_of_same rfl
  newObject _ _ := Heap.keepsClasses_of_extends (Heap.extends_newObject _ _)
  newScope _ _ := Heap.keepsClasses_of_same rfl
  newClosure _ _ := Heap.keepsClasses_of_same rfl
  setField _ _ _ _ := Heap.keepsClasses_of_extends (Heap.extends_setField _ _ _ _)
  setElement _ _ _ _ := Heap.keepsClasses_of_same rfl
  declare _ _ := Heap.keepsClasses_of_same rfl
  assign _ _ := Heap.keepsClasses_of_same rfl
  withClass _ _ _ _ := Heap.keepsClasses_of_same rfl

theorem classesKept_lawful (cfg : Settings) : classesKept.Lawful cfg :=
  Heap.lasting_keepsClasses.lawful cfg

/-! ## Looking members up -/

section

open Eval

variable {id : ObjectId} {name : String} {v : Value}

theorem readMember_object (id : ObjectId) (name : String) (m : Machine) :
    readMember (.object id) name m = .ok ((m.heap.member? id name).getD .null) m := rfl

theorem memberForCall_of_some (h : m.heap.member? id name = some v) :
    memberForCall (.object id) name m = .ok v m := by
  have hHeap : heap m = .ok m.heap m := rfl
  simp only [memberForCall, Eval.bind_eq, hHeap, h]
  rfl

theorem memberForCall_of_none (h : m.heap.member? id name = none) :
    memberForCall (.object id) name m =
      .error (.fault ⟨.undefinedMethod name (m.heap.object id).cls.name, none⟩) m := by
  have hHeap : heap m = .ok m.heap m := rfl
  simp only [memberForCall, Eval.bind_eq, hHeap, h]
  rfl

theorem readMember_of_other (h : ∀ id, v ≠ .object id) (name : String) (m : Machine) :
    readMember v name m = .error (.fault ⟨.readMember name v.typeName, none⟩) m := by
  cases v with
  | object id => exact absurd rfl (h id)
  | _ => rfl

theorem memberForCall_of_other (h : ∀ id, v ≠ .object id) (name : String) (m : Machine) :
    memberForCall v name m = .error (.fault ⟨.calledMember name v.typeName, none⟩) m := by
  cases v with
  | object id => exact absurd rfl (h id)
  | _ => rfl

end

/-! ## Reads and calls -/

/-- A member read, then the arguments, and then a call of what was read. Its faults get the place
`span`. -/
def Eval.readThenCall (cfg : Settings) (fuel depth : Nat) (env : Env) (r : Expr) (n : Ident)
    (memberSpan : Option Span) (args : List Expr) (span : Option Span) : Eval Value :=
  located span do
    let f ← run cfg (fuel + 1) (.evaluate depth env (.member r n memberSpan))
    let vs ← run cfg fuel (.evaluateAll (depth + 1) env args)
    run cfg fuel (.apply (depth + 1) f vs)

section

variable {fuel depth : Nat} {env : Env} {r : Expr} {n : Ident} {memberSpan span : Option Span}
  {args : List Expr} {m₁ : Machine} {v f : Value}
  (hReceiver : run cfg fuel (.evaluate (depth + 1) env r) m = .ok v m₁)
include hReceiver

/-- A read of a member, once its receiver has a value. -/
theorem run_member : run cfg (fuel + 1) (.evaluate depth env (.member r n memberSpan)) m =
    Eval.located memberSpan (Eval.readMember v n.name) m₁ := by
  have hRoom := isFull_eq_false_of_succ (isFull_eq_false_of_evaluate hReceiver)
  change Step.evaluate cfg (run cfg fuel) depth env (.member r n memberSpan) m = _
  rw [Step.evaluate, hRoom]
  change Eval.located memberSpan (run cfg fuel (.evaluate (depth + 1) env r) >>= fun object =>
    Eval.readMember object n.name) m = _
  unfold Eval.located
  rw [Eval.bind_eq, hReceiver]

/-- A call of a member, once its receiver has a value. -/
theorem run_callMember : run cfg (fuel + 1)
      (.evaluate depth env (.call (.member r n memberSpan) args span)) m =
    Eval.located span (do
      let f ← Eval.memberForCall v n.name
      let vs ← run cfg fuel (.evaluateAll (depth + 1) env args)
      run cfg fuel (.apply (depth + 1) f vs)) m₁ := by
  have hRoom := isFull_eq_false_of_succ (isFull_eq_false_of_evaluate hReceiver)
  change Step.evaluate cfg (run cfg fuel) depth env (.call (.member r n memberSpan) args span) m =
    _
  rw [Step.evaluate, hRoom]
  change Eval.located span (run cfg fuel (.evaluate (depth + 1) env r) >>= fun object =>
    Eval.memberForCall object n.name >>= fun f =>
      run cfg fuel (.evaluateAll (depth + 1) env args) >>= fun vs =>
        run cfg fuel (.apply (depth + 1) f vs)) m = _
  unfold Eval.located
  rw [Eval.bind_eq, hReceiver]

/-- A call whose member is not found fails as the lookup does. -/
theorem run_callMember_of_fault {e : Fault}
    (hFails : Eval.memberForCall v n.name m₁ = .error (.fault ⟨e, none⟩) m₁) :
    run cfg (fuel + 1) (.evaluate depth env (.call (.member r n memberSpan) args span)) m =
      .error (.fault ⟨e, span⟩) m₁ := by
  rw [run_callMember hReceiver]
  unfold Eval.located
  rw [Eval.bind_eq, hFails]
  rfl

end

section

variable {fuel depth : Nat} {env : Env} {r r' : Expr} {n : Ident}
  {memberSpan memberSpan' span : Option Span} {args : List Expr} {m₁ m₂ : Machine} {id : ObjectId}
  {v f : Value} {g : FuncId}

theorem run_member_of_some
    (hReceiver : run cfg fuel (.evaluate (depth + 1) env r) m = .ok (.object id) m₁)
    (hMember : m₁.heap.member? id n.name = some f) :
    run cfg (fuel + 1) (.evaluate depth env (.member r n memberSpan)) m = .ok f m₁ := by
  rw [run_member hReceiver]
  unfold Eval.located
  rw [readMember_object, hMember]
  rfl

/-- A call of a member that the instance has is a read and a call. -/
theorem run_callMember_eq
    (hReceiver : run cfg fuel (.evaluate (depth + 1) env r) m = .ok (.object id) m₁)
    (hMember : m₁.heap.member? id n.name = some f) :
    run cfg (fuel + 1) (.evaluate depth env (.call (.member r n memberSpan) args span)) m =
      Eval.readThenCall cfg fuel depth env r n memberSpan args span m := by
  have hLookup := memberForCall_of_some hMember
  have hRead : run cfg (fuel + 1) (.evaluate depth env (.member r n memberSpan)) m = .ok f m₁ :=
    run_member_of_some hReceiver hMember
  rw [run_callMember hReceiver]
  unfold Eval.readThenCall Eval.located
  rw [Eval.bind_eq, Eval.bind_eq, hLookup, hRead]

/-- A method read twice from an instance is equal to itself, whatever is done to evaluate the
receivers. -/
theorem run_equal_of_methods
    (hFirst : run cfg fuel (.evaluate (depth + 2) env r) m = .ok (.object id) m₁)
    (hSecond : run cfg fuel (.evaluate (depth + 2) env r') m₁ = .ok (.object id) m₂)
    (hField : m₁.heap.field? id n.name = none) (hField' : m₂.heap.field? id n.name = none)
    (hMethod : m₁.heap.method? id n.name = some g) :
    run cfg (fuel + 2) (.evaluate depth env
      (.binary .equal (.member r n memberSpan) (.member r' n memberSpan') span)) m =
      .ok (.bool true) m₂ := by
  have hKeeps : m₁.heap.KeepsClasses m₂.heap := by
    have hGrows := (classesKept_lawful cfg).grows_run fuel (.evaluate (depth + 2) env r') m₁
    rw [Eval.final_of_ok hSecond] at hGrows
    exact hGrows
  have hBound := Heap.member?_of_method hField hMethod
  have hBound' := Heap.member?_of_method hField' (hKeeps.method? hMethod)
  refine run_equal (run_member_of_some hFirst hBound) (run_member_of_some hSecond hBound') ?_
  simp [Heap.equal?, Heap.equalIn, Value.same]

end

/-! ## Sessions -/

/-- Members over the history of a session, in whatever steps. When a receiver is an instance that
has the member, a field or else a method of its class, then calling the member does what reading
it and then calling what was read does, and the read gives the field if there is one. When the
instance has no such member, reading it gives null and calling it is a fault; when the receiver is
no instance, both are faults of type. The faults leave the machine as the receiver did, whatever
the arguments are. Two reads of a method of one instance are equal, within an expression as well
as at any two machines that the session comes by. -/
theorem callMember_eq_readThenCall (s : Session) (steps : List Session.Step) :
    (∀ fuel depth env r (n : Ident) memberSpan args span m id m₁,
      run s.settings fuel (.evaluate (depth + 1) env r) m = .ok (.object id) m₁ →
      let read := run s.settings (fuel + 1) (.evaluate depth env (.member r n memberSpan))
      let call := run s.settings (fuel + 1)
        (.evaluate depth env (.call (.member r n memberSpan) args span))
      (∀ v, m₁.heap.field? id n.name = some v → read m = .ok v m₁) ∧
      (∀ f, m₁.heap.field? id n.name = none → m₁.heap.method? id n.name = some f →
        read m = .ok (.bound f id) m₁) ∧
      ((m₁.heap.field? id n.name).isSome ∨ (m₁.heap.method? id n.name).isSome →
        call m = Eval.readThenCall s.settings fuel depth env r n memberSpan args span m) ∧
      (m₁.heap.field? id n.name = none → m₁.heap.method? id n.name = none →
        read m = .ok .null m₁ ∧
        ∃ f : Fault, f.kind = .undefinedMethod ∧ call m = .error (.fault ⟨f, span⟩) m₁)) ∧
    (∀ fuel depth env r (n : Ident) memberSpan args span m v m₁,
      run s.settings fuel (.evaluate (depth + 1) env r) m = .ok v m₁ → (∀ id, v ≠ .object id) →
      (∃ f : Fault, f.kind = .type ∧
        run s.settings (fuel + 1) (.evaluate depth env (.member r n memberSpan)) m =
          .error (.fault ⟨f, memberSpan⟩) m₁) ∧
      ∃ f : Fault, f.kind = .type ∧
        run s.settings (fuel + 1)
            (.evaluate depth env (.call (.member r n memberSpan) args span)) m =
          .error (.fault ⟨f, span⟩) m₁) ∧
    (∀ fuel depth env r r' (n : Ident) memberSpan memberSpan' span m id m₁ m₂ f,
      run s.settings fuel (.evaluate (depth + 2) env r) m = .ok (.object id) m₁ →
      run s.settings fuel (.evaluate (depth + 2) env r') m₁ = .ok (.object id) m₂ →
      m₁.heap.field? id n.name = none → m₂.heap.field? id n.name = none →
      m₁.heap.method? id n.name = some f →
      run s.settings (fuel + 2) (.evaluate depth env
        (.binary .equal (.member r n memberSpan) (.member r' n memberSpan') span)) m =
        .ok (.bool true) m₂) ∧
    ∀ x y, s.Earlier steps x y → ∀ id name f, x.heap.field? id name = none →
      y.heap.field? id name = none → x.heap.method? id name = some f →
      ∃ v, Eval.readMember (.object id) name x = .ok v x ∧
        Eval.readMember (.object id) name y = .ok v y ∧
        ∀ cfg depth m, Eval.Equates cfg depth m v v true := by
  refine ⟨?found, ?other, ?equal, ?reads⟩
  case found =>
    intro fuel depth env r n memberSpan args span m id m₁ hReceiver
    refine ⟨fun v hField => ?_, fun f hField hMethod => ?_, fun hHas => ?_,
      fun hField hMethod => ?_⟩
    · exact run_member_of_some hReceiver (Heap.member?_of_field hField)
    · exact run_member_of_some hReceiver (Heap.member?_of_method hField hMethod)
    · have hMember : ∃ f, m₁.heap.member? id n.name = some f := by
        cases hField : m₁.heap.field? id n.name with
        | some v => exact ⟨v, Heap.member?_of_field hField⟩
        | none =>
          rw [hField] at hHas
          obtain ⟨f, hMethod⟩ := Option.isSome_iff_exists.mp (hHas.resolve_left nofun)
          exact ⟨_, Heap.member?_of_method hField hMethod⟩
      obtain ⟨f, hMember⟩ := hMember
      exact run_callMember_eq hReceiver hMember
    · have hMember : m₁.heap.member? id n.name = none := by
        rw [Heap.member?, hField, hMethod]
        rfl
      refine ⟨?_, _, rfl, run_callMember_of_fault hReceiver (memberForCall_of_none hMember)⟩
      rw [run_member hReceiver]
      unfold Eval.located
      rw [readMember_object, hMember]
      rfl
  case other =>
    intro fuel depth env r n memberSpan args span m v m₁ hReceiver hOther
    refine ⟨⟨.readMember n.name v.typeName, rfl, ?_⟩, .calledMember n.name v.typeName, rfl,
      run_callMember_of_fault hReceiver (memberForCall_of_other hOther n.name m₁)⟩
    rw [run_member hReceiver]
    unfold Eval.located
    rw [readMember_of_other hOther]
    rfl
  case equal =>
    exact fun fuel depth env r r' n memberSpan memberSpan' span m id m₁ m₂ f hFirst hSecond hField
      hField' hMethod => run_equal_of_methods hFirst hSecond hField hField' hMethod
  case reads =>
    intro x y hEarlier id name f hField hField' hMethod
    have hKeeps : x.heap.KeepsClasses y.heap :=
      (classesKept_lawful s.settings).grows_of_earlier (Discipline.level_ofHeaps _) hEarlier
    refine ⟨.bound f id, ?_, ?_, fun cfg depth m => Eval.equates_iff.mpr ?_⟩
    · rw [readMember_object, Heap.member?_of_method hField hMethod]
      rfl
    · rw [readMember_object, Heap.member?_of_method hField' (hKeeps.method? hMethod)]
      rfl
    · simp [Heap.equal?, Heap.equalIn, Value.same]

/-- A session with a name `o` for an instance that has a field `x`, and a method `m` from its
class. -/
def withInstance : Session :=
  let method : FuncDef := ⟨⟨"m", none⟩, [], ⟨[], none⟩, none⟩
  let object : Object := ⟨.base ⟨0, "C", [("m", 0)]⟩, [("x", .null)]⟩
  { Session.standard with
    globals := ⟨0, []⟩
    machine := ⟨⟨#[[("o", ⟨.object 0, false⟩)]], #[], #[object], #[⟨method, ⟨0, []⟩, false⟩], 1, 0⟩,
      .ofLines [], #[], 0, 0⟩ }

/-- The method is called as it is read and called, a method that is not there is not called, and
the method is equal to itself. -/
theorem callMember_eq_readThenCall_method :
    let settings := withInstance.settings
    let m := withInstance.machine
    let o : Expr := .name ⟨"o", none⟩
    run settings 2 (.evaluate 0 ⟨0, []⟩ (.call (.member o ⟨"m", none⟩ none) [] none)) m =
        Eval.readThenCall settings 1 0 ⟨0, []⟩ o ⟨"m", none⟩ none [] none m ∧
      (∃ f : Fault, f.kind = .undefinedMethod ∧
        run settings 2 (.evaluate 0 ⟨0, []⟩ (.call (.member o ⟨"y", none⟩ none) [o] none)) m =
          .error (.fault ⟨f, none⟩) m) ∧
      run settings 3 (.evaluate 0 ⟨0, []⟩
        (.binary .equal (.member o ⟨"m", none⟩ none) (.member o ⟨"m", none⟩ none) none)) m =
        .ok (.bool true) m := by
  obtain ⟨onInstance, -, twice, -⟩ := callMember_eq_readThenCall withInstance []
  have hReceiver : run withInstance.settings 1 (.evaluate 1 ⟨0, []⟩ (.name ⟨"o", none⟩))
      withInstance.machine = .ok (.object 0) withInstance.machine := rfl
  have hReceiver' : run withInstance.settings 1 (.evaluate 2 ⟨0, []⟩ (.name ⟨"o", none⟩))
      withInstance.machine = .ok (.object 0) withInstance.machine := rfl
  refine ⟨?_, ?_, ?_⟩
  · exact (onInstance 1 0 _ _ ⟨"m", none⟩ none [] none _ _ _ hReceiver).2.2.1 (.inr rfl)
  · exact ((onInstance 1 0 _ _ ⟨"y", none⟩ none [.name ⟨"o", none⟩] none _ _ _
      hReceiver).2.2.2 rfl rfl).2
  · exact twice 1 0 _ _ _ ⟨"m", none⟩ none none none _ _ _ _ _ hReceiver' hReceiver' rfl rfl rfl

end Tern
