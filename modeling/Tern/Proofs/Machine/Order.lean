import Tern.Proofs.Machine.Definition
import Tern.Proofs.Session

/-!
# Orders that last

Much of what is true of all runs says how a later machine compares with an earlier one, whatever the
code and the values. Such an order is a discipline that admits everything. It lasts if it is an
order of heaps that every single change of a heap obeys.

* `Discipline.ofOrder`: the discipline of an order of machines;
* `Heap.Lasting`: an order of heaps that every change obeys;
* `Heap.Lasting.lawful`: programs obey it.
-/

namespace Tern

namespace Discipline

/-- The discipline does not look at the call depth. -/
structure Level (D : Discipline) : Prop where
  inv : ∀ {m} (d : Nat), D.Inv m → D.Inv (m.atDepth d)
  next : ∀ {m m'} (d d' : Nat), D.Next (m.atDepth d) m' → D.Next m (m'.atDepth d')

/-- The discipline of an order of machines, which admits all code and all values. -/
def ofOrder (Grows : Machine → Machine → Prop) : Discipline where
  Inv _ := True
  Grows := Grows
  Val _ _ := True
  Site := Unit
  At _ _ _ := True
  Code _ _ _ := True

variable {Grows : Machine → Machine → Prop}

theorem ofOrder_fits (h : Heap) (t : Task) : (ofOrder Grows).Fits h t := by
  cases t with
  | evaluate | evaluateAll | execute | executeSimple | executeAll =>
    exact ⟨(), .top, trivial, by simp [ofOrder]⟩
  | apply | applyFunc => exact ⟨trivial, fun _ _ => trivial⟩
  | executeElifs | runWhile => exact ⟨(), .top, trivial, by simp [ofOrder], by simp [ofOrder]⟩
  | runFor =>
    exact ⟨(), .top, trivial, by simp [ofOrder], by simp [ofOrder], by simp [ofOrder]⟩

theorem ofOrder_at (h : Heap) (env : Env) : (ofOrder Grows).At h () env := trivial

theorem ofOrder_code (n : Node) : (ofOrder Grows).Code () .top n := trivial

theorem ofOrder_topLevel (n : Node) : (ofOrder Grows).TopLevel n :=
  ⟨(), .top, trivial, fun _ _ => trivial⟩

end Discipline

namespace Heap

variable {R : Heap → Heap → Prop}

/-- An order of heaps that each single change of a heap obeys: new cells, new contents of old ones,
and names that are free to be declared or assigned. -/
structure Lasting (R : Heap → Heap → Prop) : Prop where
  refl : ∀ h, R h h
  trans : ∀ {h₁ h₂ h₃}, R h₁ h₂ → R h₂ h₃ → R h₁ h₃
  countNan : ∀ h n, R h { h with nans := n }
  newArray : ∀ h elements, R h (h.newArray elements).2
  newObject : ∀ h o, R h (h.newObject o).2
  newScope : ∀ h names, R h (h.newScope names).2
  newClosure : ∀ h c, R h (h.newClosure c).2
  setField : ∀ h id name v, R h (h.setField id name v)
  setElement : ∀ h id i v, R h (h.setElement id i v)
  declare : ∀ {h env name}, h.checkDeclare env name = .ok () → ∀ b,
    R h (h.bind env.current name b)
  assign : ∀ {h env name s}, h.assignTarget env name = .ok s → ∀ v,
    R h (h.bind s name ⟨v, false⟩)
  withClass : ∀ h env c parent, R h (h.withClass env c parent)

variable (hR : Lasting R)
include hR

theorem Lasting.defineClass (env : Env) (c : ClassDef) (m : Machine) :
    R m.heap ((Eval.defineClass env c).final m).heap := by
  rcases Eval.final_defineClass env c m with hSame | ⟨parent, -, -, hFinal | ⟨hCheck, hFinal⟩⟩
  · rw [hSame]
    exact hR.refl _
  · rw [hFinal]
    exact hR.withClass _ env c parent
  · rw [hFinal]
    exact hR.trans (hR.withClass m.heap env c parent) (hR.declare hCheck _)

theorem Lasting.enterCall {closure : Closure} {self : Option ObjectId} {args : List Value}
    {env : Env} {m m' : Machine} (h : Eval.enterCall closure self args m = .ok env m') :
    R m.heap m'.heap := by
  cases self with
  | none =>
    rw [Eval.enterCall_func] at h
    cases h
    exact hR.newScope _ _
  | some o =>
    rw [Eval.enterCall_method] at h
    cases h
    exact hR.trans (hR.newScope m.heap [("this", ⟨.object o, true⟩)]) (hR.newScope _ _)

/-- What every change obeys is obeyed by programs. -/
theorem Lasting.lawful (cfg : Settings) :
    (Discipline.ofOrder fun m m' => R m.heap m'.heap).Lawful cfg where
  refl m := hR.refl m.heap
  trans := hR.trans
  val_grows _ _ := trivial
  at_grows _ _ := trivial
  code_part _ _ := trivial
  plain _ := trivial
  lookup _ _ _ := trivial
  superMethod _ _ _ _ _ _ := trivial
  element _ _ _ := trivial
  member _ _ _ := trivial
  host := Discipline.trusts_of_all (fun _ _ => trivial) cfg.host
  foreign _ _ := trivial
  console _ _ := trivial
  quiet {m m'} _ hHeap _ _ := by
    refine ⟨trivial, ?_⟩
    change R m.heap m'.heap
    rw [hHeap]
    exact hR.refl _
  countNan _ := ⟨trivial, hR.countNan _ _⟩
  newArray _ _ := ⟨⟨trivial, hR.newArray _ _⟩, trivial⟩
  newObject _ _ := ⟨⟨trivial, hR.newObject _ _⟩, trivial, fun _ _ => trivial⟩
  setField _ _ _ := ⟨trivial, hR.setField _ _ _ _⟩
  setElement _ _ _ := ⟨trivial, hR.setElement _ _ _ _⟩
  newScope _ _ _ := ⟨⟨trivial, hR.newScope _ _⟩, trivial⟩
  declare _ _ _ _ hCheck := ⟨trivial, hR.declare hCheck _⟩
  assign _ _ _ _ hTarget := ⟨trivial, hR.assign hTarget _⟩
  newFunc _ _ _ := ⟨⟨trivial, hR.newClosure _ _⟩, trivial⟩
  defineClass _ _ _ := ⟨trivial, hR.defineClass _ _ _⟩
  call _ _ _ _ _ hEnter :=
    ⟨trivial, ⟨(), .top, trivial, fun _ _ => trivial⟩, fun _ hBody =>
      ⟨trivial, hR.trans (hR.enterCall hEnter) hBody.2⟩⟩

end Heap

namespace Discipline

/-- An order of heaps does not look at the call depth. -/
theorem level_ofHeaps (R : Heap → Heap → Prop) : (ofOrder fun m m' => R m.heap m'.heap).Level where
  inv _ _ := trivial
  next _ _ h := h

/-- The discipline that asks for nothing. -/
theorem unordered_lawful (cfg : Settings) : (ofOrder fun _ _ => True).Lawful cfg :=
  Heap.Lasting.lawful (R := fun _ _ => True) (by constructor <;> intros <;> trivial) cfg

end Discipline

end Tern
