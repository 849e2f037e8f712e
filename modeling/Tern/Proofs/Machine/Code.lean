import Tern.Proofs.Machine.Definition
import Tern.Proofs.Syntax.Placement

/-!
# The code on the heap

Functions come onto the heap when their definitions run. So what holds of a program and, with
every piece of code, of its parts holds of the functions on the heap as well: if it does at the
start of a run it does at every moment, and all the code that the run comes by is such code.

* `Node.Hereditary`: a property of code that its parts have as well;
* `Heap.CodeHas`: every function on the heap has the property;
* `codeHas_lawful`: that is a discipline, and so it lasts.
-/

namespace Tern

/-- A property of code in its surroundings that every part has if the whole has it. -/
def Node.Hereditary (P : Context → Node → Prop) : Prop :=
  ∀ ⦃ctx : Context⦄ ⦃n : Node⦄ ⦃q : Context × Node⦄, P ctx n → q ∈ n.parts ctx → P q.1 q.2

/-- Every function on the heap has the property somewhere. -/
def Heap.CodeHas (P : Context → Node → Prop) (h : Heap) : Prop :=
  ∀ c ∈ h.closures, ∃ ctx, P ctx (.stmt (.func c.definition))

/-- Code has the property, on the heap and where it runs. -/
def codeHas (P : Context → Node → Prop) : Discipline where
  Inv m := m.heap.CodeHas P
  Grows _ _ := True
  Val _ _ := True
  Site := Unit
  At _ _ _ := True
  Code _ ctx n := P ctx n

variable {P : Context → Node → Prop}

namespace Heap.CodeHas

variable {h h' : Heap}

theorem of_closures (hCode : h.CodeHas P) (hSame : h'.closures = h.closures) : h'.CodeHas P := by
  unfold Heap.CodeHas
  rw [hSame]
  exact hCode

theorem append (hCode : h.CodeHas P) (new : List Closure)
    (hNew : ∀ c ∈ new, ∃ ctx, P ctx (.stmt (.func c.definition)))
    (hSame : h'.closures = h.closures ++ new) : h'.CodeHas P := by
  intro c hc
  rw [hSame, ← Array.mem_toList_iff, Array.toList_appendList, List.mem_append] at hc
  rcases hc with hOld | hAdded
  · exact hCode c (Array.mem_toList_iff.mp hOld)
  · exact hNew c hAdded

/-- A number that was never handed out stands for a function without a body. -/
theorem closure (hCode : h.CodeHas P) (id : FuncId) :
    (∃ ctx, P ctx (.stmt (.func (h.closure id).definition))) ∨
      (h.closure id).definition.body.body = [] := by
  by_cases hId : id < h.closures.size
  · have hMem : h.closure id ∈ h.closures := by
      simp [Heap.closure, Array.getD, hId]
    exact .inl (hCode _ hMem)
  · have hDefault : h.closure id = default := by
      simp [Heap.closure, Array.getD, hId]
    rw [hDefault]
    exact .inr rfl

end Heap.CodeHas

/-- The statements in the body of a function. -/
theorem Node.Hereditary.body (hP : Node.Hereditary P) {ctx : Context} {f : FuncDef}
    (hFunc : P ctx (.stmt (.func f))) : ∀ s ∈ f.body.body, P ctx.func (.stmt s) := by
  have hPart : (ctx.func, Node.block f.body) ∈ (Node.stmt (.func f)).parts ctx := by
    simp [Node.parts, Node.stmtParts]
  have hBlock : P ctx.func (.block f.body) := hP hFunc hPart
  exact fun s hs => hP hBlock (List.mem_map_of_mem (List.mem_map_of_mem hs))

theorem codeHas_defineClass (hP : Node.Hereditary P) {m : Machine} {ctx : Context} {env : Env}
    {c : ClassDef} (hHeap : m.heap.CodeHas P) (hCode : P ctx (.stmt (.cls c))) :
    ((Eval.defineClass env c).final m).heap.CodeHas P := by
  have hMethods : ∀ methodEnv, ∀ closure ∈ c.methods.map (·.toMethod methodEnv),
      ∃ ctx, P ctx (.stmt (.func closure.definition)) := by
    intro methodEnv closure hMem
    obtain ⟨f, hf, rfl⟩ := List.mem_map.mp hMem
    have hMethod : (ctx.cls c.superclass.isSome, Node.stmt (.func f)) ∈
        (Node.stmt (.cls c)).parts ctx := List.mem_append_right _ (List.mem_map_of_mem hf)
    exact ⟨_, hP hCode hMethod⟩
  rcases Eval.final_defineClass env c m with hSame | ⟨parent, -, -, hFinal | ⟨-, hFinal⟩⟩
  · rw [hSame]
    exact hHeap
  · rw [hFinal]
    exact hHeap.append _ (hMethods _) rfl
  · rw [hFinal]
    exact hHeap.append _ (hMethods _) rfl

theorem codeHas_lawful (hP : Node.Hereditary P) (cfg : Settings) : (codeHas P).Lawful cfg where
  refl _ := trivial
  trans _ _ := trivial
  val_grows _ _ := trivial
  at_grows _ _ := trivial
  code_part hCode hPart := hP hCode (Node.mem_parts_of_own hPart)
  plain _ := trivial
  lookup _ _ _ := trivial
  superMethod _ _ _ _ _ _ := trivial
  element _ _ _ := trivial
  member _ _ _ := trivial
  host := Discipline.trusts_of_all (fun _ _ => trivial) cfg.host
  foreign _ _ := trivial
  console _ _ := trivial
  quiet hInv hHeap _ _ := ⟨hInv.of_closures (congrArg Heap.closures hHeap), trivial⟩
  countNan hInv := ⟨hInv.of_closures rfl, trivial⟩
  newArray hInv _ := ⟨⟨hInv.of_closures rfl, trivial⟩, trivial⟩
  newObject hInv _ := ⟨⟨hInv.of_closures rfl, trivial⟩, trivial, fun _ _ => trivial⟩
  setField hInv _ _ := ⟨hInv.of_closures rfl, trivial⟩
  setElement hInv _ _ := ⟨hInv.of_closures rfl, trivial⟩
  newScope hInv _ _ := ⟨⟨hInv.of_closures rfl, trivial⟩, trivial⟩
  declare hInv _ _ _ _ := ⟨hInv.of_closures rfl, trivial⟩
  assign hInv _ _ _ _ := ⟨hInv.of_closures rfl, trivial⟩
  newFunc {m _ ctx env f} hInv _ hCode := by
    refine ⟨⟨hInv.append [⟨f, env, false⟩] ?_ rfl, trivial⟩, trivial⟩
    simpa using ⟨ctx, hCode⟩
  defineClass hInv _ hCode := ⟨codeHas_defineClass hP hInv hCode, trivial⟩
  call := by
    intro m m₁ id self args env hInv _ _ _ _ hEnter
    have hSame : m₁.heap.closures = m.heap.closures := by
      cases self with
      | none =>
        rw [Eval.enterCall_func] at hEnter
        cases hEnter
        rfl
      | some o =>
        rw [Eval.enterCall_method] at hEnter
        cases hEnter
        rfl
    have hBody : ∃ ctx, ∀ s ∈ (m.heap.closure id).definition.body.body, P ctx (.stmt s) := by
      rcases hInv.closure id with ⟨ctx, hFunc⟩ | hEmpty
      · exact ⟨ctx.func, hP.body hFunc⟩
      · exact ⟨.top, by simp [hEmpty]⟩
    obtain ⟨ctx, hBody⟩ := hBody
    exact ⟨hInv.of_closures hSame, ⟨(), ctx, trivial, hBody⟩, fun m₂ hm₂ => ⟨hm₂.1, trivial⟩⟩

end Tern
