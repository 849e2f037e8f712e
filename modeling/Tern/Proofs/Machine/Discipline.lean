import Tern.Machine.Evaluate
import Tern.Proofs.Console
import Tern.Proofs.Machine.Routine
import Tern.Proofs.Syntax.Placement

/-!
# Disciplines

Many things stay true while programs run: closures hold well-placed code, method calls find
their instance, the call depth is restored. Each is a `Discipline`: an invariant of machines,
an order in which machines grow, the values that may occur, and for each site in the code the
environments in which it runs. `Discipline.Lawful` asks for the smallest changes of a machine
only, `Discipline.Steady` for all of them but class definitions; that whole runs keep the discipline is proved once, in `Tern.Proofs.Machine.Run`.

Two computations are compared at a time. `Discipline.Twin` says that they do the same from a
machine on, and that what they do keeps the discipline. Computations that differ only in what
they would do outside of the discipline are twins, so a run never asks for anything outside.

* `Discipline.Lawful`: what a discipline has to satisfy;
* `Discipline.Twin`: two computations that do the same and keep the discipline;
* `Discipline.twin_bind` and the lemmas after it follow the operations of the machine.
-/

namespace Tern

/-- The machine with another heap. -/
def Machine.withHeap (m : Machine) (h : Heap) : Machine := { m with heap := h }

/-- The machine at another call depth. -/
def Machine.atDepth (m : Machine) (d : Nat) : Machine := { m with callDepth := d }

@[simp] theorem Machine.heap_withHeap (m : Machine) (h : Heap) : (m.withHeap h).heap = h := rfl
@[simp] theorem Machine.callDepth_withHeap (m : Machine) (h : Heap) :
    (m.withHeap h).callDepth = m.callDepth := rfl
@[simp] theorem Machine.heap_atDepth (m : Machine) (d : Nat) : (m.atDepth d).heap = m.heap := rfl
@[simp] theorem Machine.callDepth_atDepth (m : Machine) (d : Nat) :
    (m.atDepth d).callDepth = d := rfl

/-- The machine that a computation leaves behind, however it ends. -/
def Eval.final {α : Type} (x : Eval α) (m : Machine) : Machine :=
  match x m with
  | .ok _ m' => m'
  | .error _ m' => m'

/-- The value through which a function is called, with or without an instance. -/
def Value.callee (id : FuncId) : Option ObjectId → Value
  | none => .func id
  | some self => .bound id self

/-- An invariant of runs. -/
structure Discipline where
  /-- The machines that may occur. -/
  Inv : Machine → Prop
  /-- How a machine may have changed. -/
  Grows : Machine → Machine → Prop
  /-- The values that may occur. -/
  Val : Heap → Value → Prop
  /-- Where code stands when it runs. -/
  Site : Type
  /-- The environments in which the code of a site runs. -/
  At : Heap → Site → Env → Prop
  /-- The code of a site. -/
  Code : Site → Context → Node → Prop
  /-- The failures of the host that may occur. -/
  MayFail : String → Prop := fun _ => True

namespace Discipline

/-- The functions of the host that may occur keep to values that may. -/
def Trusts (D : Discipline) (host : Host) : Prop :=
  ∃ made : Value → Prop, (∀ h v, made v → D.Val h v) ∧
    ∀ h name arity args, D.Val h (.native (.foreign name arity)) →
      (host name args).Honest fun v => v ∈ args ∨ made v

theorem trusts_of_all {D : Discipline} (h : ∀ h v, D.Val h v) (host : Host) : D.Trusts host :=
  ⟨fun _ => True, fun h' v _ => h h' v,
    fun _ _ _ _ _ => Routine.honest_of_all (fun _ => .inr trivial) _⟩

theorem trusts_of_not_foreign {D : Discipline}
    (h : ∀ h name arity, ¬D.Val h (.native (.foreign name arity))) (host : Host) : D.Trusts host :=
  ⟨fun _ => False, fun _ _ hv => hv.elim, fun h' name arity _ hNative =>
    absurd hNative (h h' name arity)⟩

theorem trusts_of_honest {D : Discipline} {host : Host} (hHost : host.Honest)
    (hPlain : ∀ h v, v.IsPlain → D.Val h v) (hNative : ∀ h f, D.Val h (.native f)) :
    D.Trusts host := by
  refine ⟨fun v => v.IsPlain ∨ ∃ f, v = .native f, ?_, fun _ name _ args _ => hHost name args⟩
  rintro h v (hv | ⟨f, rfl⟩)
  · exact hPlain h v hv
  · exact hNative h f

/-- A machine that may come after `m`. -/
def Next (D : Discipline) (m m' : Machine) : Prop := D.Inv m' ∧ D.Grows m m'

/-- What makes a discipline last as long as no class is defined: growing is an order that keeps
values and environments, what is read may occur, and each single change leads to a machine that
may come next. -/
structure Steady (D : Discipline) (cfg : Settings) : Prop where
  refl : ∀ m, D.Grows m m
  trans : ∀ {m₁ m₂ m₃}, D.Grows m₁ m₂ → D.Grows m₂ m₃ → D.Grows m₁ m₃
  val_grows : ∀ {m m' v}, D.Grows m m' → D.Val m.heap v → D.Val m'.heap v
  at_grows : ∀ {m m' σ env}, D.Grows m m' → D.At m.heap σ env → D.At m'.heap σ env
  code_part : ∀ {σ ctx n q}, D.Code σ ctx n → q ∈ n.ownParts ctx → D.Code σ q.1 q.2
  plain : ∀ {h v}, v.IsPlain → D.Val h v
  lookup : ∀ {m σ env name v}, D.Inv m → D.At m.heap σ env → m.heap.get env name = .ok v →
    D.Val m.heap v
  superMethod : ∀ {m σ ctx env id span c o f}, D.Inv m → D.At m.heap σ env →
    D.Code σ ctx (.expr (.super id span)) → m.heap.get env "super" = .ok (.cls c) →
    m.heap.get env "this" = .ok (.object o) → c.findMethod? id.name = some f →
    D.Val m.heap (.bound f o)
  element : ∀ {m id v}, D.Inv m → D.Val m.heap (.array id) →
    v ∈ (m.heap.elements id).toList → D.Val m.heap v
  member : ∀ {m id name v}, D.Inv m → D.Val m.heap (.object id) →
    m.heap.member? id name = some v → D.Val m.heap v
  host : D.Trusts cfg.host
  foreign : ∀ {h name arity}, D.Val h (.native (.foreign name arity)) → ∀ message, D.MayFail message
  console : ∀ {m message}, D.Inv m → m.console.Fails message → D.MayFail message
  quiet : ∀ {m m'}, D.Inv m → m'.heap = m.heap → m'.callDepth = m.callDepth →
    m.console.Onward m'.console → D.Next m m'
  countNan : ∀ {m n}, D.Inv m → D.Next m (m.withHeap { m.heap with nans := n })
  newArray : ∀ {m} {vs : List Value}, D.Inv m → (∀ v ∈ vs, D.Val m.heap v) →
    D.Next m (m.withHeap (m.heap.newArray vs.toArray).2) ∧
      D.Val (m.heap.newArray vs.toArray).2 (.array m.heap.arrays.size)
  newObject : ∀ {m c}, D.Inv m → D.Val m.heap (.cls c) →
    D.Next m (m.withHeap (m.heap.newObject ⟨c, []⟩).2) ∧
      D.Val (m.heap.newObject ⟨c, []⟩).2 (.object m.heap.objects.size) ∧
      ∀ f, c.findMethod? Eval.initializerName = some f →
        D.Val (m.heap.newObject ⟨c, []⟩).2 (.bound f m.heap.objects.size)
  setField : ∀ {m id name v}, D.Inv m → D.Val m.heap (.object id) → D.Val m.heap v →
    D.Next m (m.withHeap (m.heap.setField id name v))
  setElement : ∀ {m id i v}, D.Inv m → D.Val m.heap (.array id) → D.Val m.heap v →
    D.Next m (m.withHeap (m.heap.setElement id i v))
  newScope : ∀ {m σ ctx env names}, D.Inv m → D.At m.heap σ env →
    (∀ b ∈ names, (∃ id : Ident, id.name = b.1 ∧ D.Code σ ctx (.ident id)) ∧
      D.Val m.heap b.2.value) →
    D.Next m (m.withHeap (m.heap.newScope names).2) ∧
      D.At (m.heap.newScope names).2 σ (env.extend m.heap.scopes.size)
  declare : ∀ {m σ ctx env id v constant}, D.Inv m → D.At m.heap σ env →
    D.Code σ ctx (.ident id) → D.Val m.heap v → m.heap.checkDeclare env id.name = .ok () →
    D.Next m (m.withHeap (m.heap.bind env.current id.name ⟨v, constant⟩))
  assign : ∀ {m σ ctx env id v s}, D.Inv m → D.At m.heap σ env → D.Code σ ctx (.ident id) →
    D.Val m.heap v → m.heap.assignTarget env id.name = .ok s →
    D.Next m (m.withHeap (m.heap.bind s id.name ⟨v, false⟩))
  newFunc : ∀ {m σ ctx env f}, D.Inv m → D.At m.heap σ env → D.Code σ ctx (.stmt (.func f)) →
    D.Next m (m.withHeap (m.heap.newClosure ⟨f, env, false⟩).2) ∧
      D.Val (m.heap.newClosure ⟨f, env, false⟩).2 (.func m.heap.closures.size)
  call : ∀ {m m₁ id self args env}, D.Inv m → D.Val m.heap (.callee id self) →
    (∀ v ∈ args, D.Val m.heap v) → (m.heap.closure id).definition.params.length = args.length →
    m.callDepth < cfg.maxCallDepth →
    Eval.enterCall (m.heap.closure id) self args m = .ok env m₁ →
    D.Inv (m₁.atDepth (m₁.callDepth + 1)) ∧
      (∃ σ ctx, D.At m₁.heap σ env ∧
        ∀ s ∈ (m.heap.closure id).definition.body.body, D.Code σ ctx (.stmt s)) ∧
      ∀ m₂, D.Next (m₁.atDepth (m₁.callDepth + 1)) m₂ →
        D.Next m (m₂.atDepth (m₂.callDepth - 1))

/-- What makes a discipline last: class definitions, too, lead to machines that may come next. -/
structure Lawful (D : Discipline) (cfg : Settings) : Prop extends D.Steady cfg where
  defineClass : ∀ {m σ ctx env c}, D.Inv m → D.At m.heap σ env →
    D.Code σ ctx (.stmt (.cls c)) → D.Next m ((Eval.defineClass env c).final m)

variable {cfg : Settings} {D : Discipline} {α β : Type} {m₀ m : Machine}

/-! ## Twins -/

/-- A signal carries a value, or a failure of the host, only if it may occur. -/
def Sig (D : Discipline) (h : Heap) : Signal → Prop
  | .thrown t => D.Val h t.value
  | .failure message => D.MayFail message
  | _ => True

/-- From `m` on, `x` and `y` do the same. They lead to a machine that may come after `m₀`, with
a result that satisfies `Q` or a signal that may occur. -/
def Twin (D : Discipline) (m₀ m : Machine) (x y : Eval α) (Q : Machine → α → Prop) : Prop :=
  y m = x m ∧
    match x m with
    | .ok a m' => D.Next m₀ m' ∧ Q m' a
    | .error s m' => D.Next m₀ m' ∧ D.Sig m'.heap s

/-- A computation that keeps the discipline is its own twin. -/
abbrev Holds (D : Discipline) (m₀ m : Machine) (x : Eval α) (Q : Machine → α → Prop) : Prop :=
  D.Twin m₀ m x x Q

/-- Whatever the end, the machine left behind may come next. -/
theorem Twin.next {x y : Eval α} {Q : Machine → α → Prop} (h : D.Twin m₀ m x y Q) :
    D.Next m₀ (x.final m) := by
  have hEnd := h.2
  unfold Eval.final
  cases hx : x m with
  | ok a m' =>
    rw [hx] at hEnd
    exact hEnd.1
  | error s m' =>
    rw [hx] at hEnd
    exact hEnd.1

/-- A result satisfies what is said of results. -/
theorem Twin.ok {x y : Eval α} {Q : Machine → α → Prop} {a : α} {m' : Machine}
    (h : D.Twin m₀ m x y Q) (hx : x m = .ok a m') : D.Next m₀ m' ∧ Q m' a := by
  have hEnd := h.2
  rw [hx] at hEnd
  exact hEnd

theorem twin_pure {Q : Machine → α → Prop} {a : α} (hm : D.Next m₀ m) (hQ : Q m a) :
    D.Holds m₀ m (pure a) Q :=
  ⟨rfl, hm, hQ⟩

theorem twin_throw {Q : Machine → α → Prop} {s : Signal} (hm : D.Next m₀ m)
    (hs : D.Sig m.heap s) : D.Holds m₀ m (throw s) Q :=
  ⟨rfl, hm, hs⟩

theorem twin_fault {Q : Machine → α → Prop} (f : Fault) (hm : D.Next m₀ m) :
    D.Holds m₀ m (Eval.fault f) Q :=
  twin_throw hm trivial

theorem twin_overflow {Q : Machine → α → Prop} (hm : D.Next m₀ m) :
    D.Holds m₀ m Eval.overflow Q :=
  twin_throw hm trivial

theorem twin_bind {x y : Eval α} {f g : α → Eval β} {P : Machine → α → Prop}
    {Q : Machine → β → Prop} (hx : D.Twin m₀ m x y P)
    (hf : ∀ a m', D.Next m₀ m' → P m' a → D.Twin m₀ m' (f a) (g a) Q) :
    D.Twin m₀ m (x >>= f) (y >>= g) Q := by
  obtain ⟨hSame, hEnd⟩ := hx
  have hLeft : (x >>= f) m = EStateM.bind x f m := rfl
  have hRight : (y >>= g) m = EStateM.bind y g m := rfl
  unfold Twin
  rw [hLeft, hRight]
  unfold EStateM.bind
  rw [hSame]
  cases h : x m with
  | ok a m' =>
    rw [h] at hEnd
    exact hf a m' hEnd.1 hEnd.2
  | error s m' =>
    rw [h] at hEnd
    exact ⟨rfl, hEnd⟩

theorem twin_mono {x y : Eval α} {P Q : Machine → α → Prop} (h : D.Twin m₀ m x y P)
    (hPQ : ∀ a m', D.Next m₀ m' → P m' a → Q m' a) : D.Twin m₀ m x y Q := by
  obtain ⟨hSame, hEnd⟩ := h
  refine ⟨hSame, ?_⟩
  cases hx : x m with
  | ok a m' =>
    rw [hx] at hEnd
    exact ⟨hEnd.1, hPQ a m' hEnd.1 hEnd.2⟩
  | error s m' =>
    rw [hx] at hEnd
    exact hEnd

theorem twin_ite {c : Prop} [Decidable c] {x y x' y' : Eval α} {Q : Machine → α → Prop}
    (hx : c → D.Twin m₀ m x y Q) (hx' : ¬c → D.Twin m₀ m x' y' Q) :
    D.Twin m₀ m (if c then x else x') (if c then y else y') Q := by
  split
  · exact hx ‹_›
  · exact hx' ‹_›

/-- What comes after `m` comes after what `m` comes after. -/
theorem Steady.twin_from (L : D.Steady cfg) {x y : Eval α} {Q : Machine → α → Prop}
    (hm : D.Next m₀ m) (h : D.Twin m m x y Q) : D.Twin m₀ m x y Q := by
  obtain ⟨hSame, hEnd⟩ := h
  refine ⟨hSame, ?_⟩
  cases hx : x m with
  | ok a m' =>
    rw [hx] at hEnd
    exact ⟨⟨hEnd.1.1, L.trans hm.2 hEnd.1.2⟩, hEnd.2⟩
  | error s m' =>
    rw [hx] at hEnd
    exact ⟨⟨hEnd.1.1, L.trans hm.2 hEnd.1.2⟩, hEnd.2⟩

theorem twin_located {x y : Eval α} {Q : Machine → α → Prop} (span : Option Span)
    (h : D.Twin m₀ m x y Q) : D.Twin m₀ m (Eval.located span x) (Eval.located span y) Q := by
  obtain ⟨hSame, hEnd⟩ := h
  unfold Twin Eval.located
  rw [hSame]
  cases hx : x m with
  | ok a m' =>
    rw [hx] at hEnd
    exact ⟨rfl, hEnd⟩
  | error s m' =>
    rw [hx] at hEnd
    refine ⟨rfl, hEnd.1, ?_⟩
    cases s <;> exact hEnd.2

/-- The values of a completion may occur. -/
def Ends (D : Discipline) (h : Heap) : Completion → Prop
  | .ret v => D.Val h v
  | .throw t => D.Val h t.value
  | _ => True

theorem Steady.twin_guarded (L : D.Steady cfg) {x y : Eval Completion} (span : Option Span)
    (h : D.Twin m₀ m x y fun m' => D.Ends m'.heap) :
    D.Twin m₀ m (Eval.guarded span x) (Eval.guarded span y) fun m' => D.Ends m'.heap := by
  obtain ⟨hSame, hEnd⟩ := h
  unfold Twin Eval.guarded
  rw [hSame]
  cases hx : x m with
  | ok a m' =>
    rw [hx] at hEnd
    exact ⟨rfl, hEnd⟩
  | error s m' =>
    rw [hx] at hEnd
    refine ⟨rfl, ?_⟩
    cases s with
    | thrown t => exact hEnd
    | fault | overflow => exact ⟨hEnd.1, L.plain trivial⟩
    | failure | exhausted => exact hEnd

/-! ## Operations -/

section

variable (L : D.Steady cfg) (hm : D.Next m₀ m)
include hm

theorem holds_get : D.Holds m₀ m get fun m' a => m' = m ∧ a = m :=
  ⟨rfl, hm, rfl, rfl⟩

theorem holds_heap : D.Holds m₀ m Eval.heap fun m' h => m' = m ∧ h = m.heap :=
  ⟨rfl, hm, rfl, rfl⟩

theorem holds_consult {f : Heap → Except Fault α} {Q : Machine → α → Prop}
    (h : ∀ a, f m.heap = .ok a → Q m a) : D.Holds m₀ m (Eval.consult f) Q := by
  refine ⟨rfl, ?_⟩
  unfold Eval.consult
  cases hf : f m.heap with
  | ok a => exact ⟨hm, h a hf⟩
  | error e => exact ⟨hm, trivial⟩

include L

/-- A change of the heap that leads to a machine that may come next. -/
theorem Steady.holds_update {f : Heap → Heap} {Q : Machine → Unit → Prop}
    (h : D.Next m (m.withHeap (f m.heap))) (hQ : Q (m.withHeap (f m.heap)) ()) :
    D.Holds m₀ m (Eval.update f) Q :=
  ⟨rfl, ⟨h.1, L.trans hm.2 h.2⟩, hQ⟩

theorem Steady.holds_alloc {f : Heap → α × Heap} {Q : Machine → α → Prop}
    (h : D.Next m (m.withHeap (f m.heap).2)) (hQ : Q (m.withHeap (f m.heap).2) (f m.heap).1) :
    D.Holds m₀ m (Eval.alloc f) Q :=
  ⟨rfl, ⟨h.1, L.trans hm.2 h.2⟩, hQ⟩

/-- A change of what lies outside of the heap and of the console. -/
theorem Steady.holds_modify {f : Machine → Machine} (hHeap : (f m).heap = m.heap)
    (hDepth : (f m).callDepth = m.callDepth) (hConsole : (f m).console = m.console) :
    D.Holds m₀ m (modify f) fun m' _ => m'.heap = m.heap := by
  have h := L.quiet hm.1 hHeap hDepth (by rw [hConsole]; exact .refl m.console)
  exact ⟨rfl, ⟨h.1, L.trans hm.2 h.2⟩, hHeap⟩

/-! ### Names -/

theorem Steady.holds_lookup {σ : D.Site} {env : Env} (hAt : D.At m.heap σ env) (name : String) :
    D.Holds m₀ m (Eval.lookup env name) fun m' => D.Val m'.heap :=
  holds_consult hm fun _ hv => L.lookup hm.1 hAt hv

theorem Steady.holds_declare {σ : D.Site} {ctx : Context} {env : Env} {id : Ident} {v : Value}
    (hAt : D.At m.heap σ env) (hId : D.Code σ ctx (.ident id)) (hv : D.Val m.heap v)
    (constant : Bool) :
    D.Holds m₀ m (Eval.declare env id.name v constant) fun _ _ => True := by
  refine twin_bind (P := fun m' _ => m' = m ∧ m.heap.checkDeclare env id.name = .ok ())
    (holds_consult hm fun _ h => ⟨rfl, h⟩) ?_
  rintro _ m' - ⟨rfl, hCheck⟩
  exact L.holds_update hm (L.declare hm.1 hAt hId hv hCheck) trivial

theorem Steady.holds_assign {σ : D.Site} {ctx : Context} {env : Env} {id : Ident} {v : Value}
    (hAt : D.At m.heap σ env) (hId : D.Code σ ctx (.ident id)) (hv : D.Val m.heap v) :
    D.Holds m₀ m (Eval.assign env id.name v) fun m' _ => D.Val m'.heap v := by
  refine twin_bind (P := fun m' s => m' = m ∧ m.heap.assignTarget env id.name = .ok s)
    (holds_consult hm fun _ h => ⟨rfl, h⟩) ?_
  rintro s m' - ⟨rfl, hTarget⟩
  have hNext := L.assign hm.1 hAt hId hv hTarget
  exact L.holds_update hm hNext (L.val_grows hNext.2 hv)

theorem Steady.holds_enter {σ : D.Site} {env : Env} {names : Scope} (ctx : Context)
    (hAt : D.At m.heap σ env)
    (hNames : ∀ b ∈ names, (∃ id : Ident, id.name = b.1 ∧ D.Code σ ctx (.ident id)) ∧
      D.Val m.heap b.2.value) :
    D.Holds m₀ m (Eval.enter env names) fun m' env' => D.At m'.heap σ env' := by
  obtain ⟨hNext, hInner⟩ := L.newScope hm.1 hAt hNames
  refine twin_bind (P := fun m' s => D.At m'.heap σ (env.extend s))
    (L.holds_alloc hm hNext hInner) ?_
  intro s m' hm' hAt'
  exact twin_pure hm' hAt'

/-- Entering a block. -/
theorem Steady.holds_enterBlock {σ : D.Site} {env : Env} (ctx : Context)
    (hAt : D.At m.heap σ env) :
    D.Holds m₀ m (Eval.enter env []) fun m' env' => D.At m'.heap σ env' :=
  L.holds_enter hm ctx hAt (by simp)

/-! ### Operators -/

theorem Steady.holds_number (x : Float) :
    D.Holds m₀ m (Eval.number x) fun m' => D.Val m'.heap := by
  unfold Eval.number
  by_cases hx : x.isNaN = true
  · have hNew : m.heap.newNumber x =
        (.nan m.heap.nans, { m.heap with nans := m.heap.nans + 1 }) := if_pos hx
    refine L.holds_alloc hm ?_ ?_
    · rw [hNew]
      exact L.countNan hm.1
    · rw [hNew]
      exact L.plain trivial
  · have hNew : m.heap.newNumber x = (.number x, m.heap) := if_neg hx
    refine L.holds_alloc hm ?_ ?_
    · rw [hNew]
      exact L.quiet hm.1 rfl rfl (.refl m.console)
    · rw [hNew]
      exact L.plain trivial

omit L in
theorem holds_display (depth : Nat) (v : Value) :
    D.Holds m₀ m (Eval.display cfg depth v) fun m' _ => m' = m := by
  refine twin_bind (holds_heap hm) ?_
  rintro h m' hm' ⟨rfl, rfl⟩
  split
  · exact twin_pure hm rfl
  · exact twin_overflow hm

omit L in
theorem holds_equal (depth : Nat) (a b : Value) :
    D.Holds m₀ m (Eval.equal cfg depth a b) fun m' _ => m' = m := by
  refine twin_bind (holds_heap hm) ?_
  rintro h m' hm' ⟨rfl, rfl⟩
  split
  · exact twin_pure hm rfl
  · exact twin_overflow hm

theorem Steady.holds_unary (op : UnaryOp) (v : Value) :
    D.Holds m₀ m (Eval.unary op v) fun m' => D.Val m'.heap := by
  unfold Eval.unary
  split
  · exact twin_pure hm (L.plain trivial)
  · split
    · exact L.holds_number hm _
    · exact twin_fault _ hm

theorem Steady.holds_onNumbers {op : BinaryOp} {x y : Float} {z : Eval Value}
    (h : Eval.onNumbers op x y = some z) : D.Holds m₀ m z fun m' => D.Val m'.heap := by
  unfold Eval.onNumbers at h
  split at h
  · cases h
    exact L.holds_number hm _
  · obtain ⟨b, -, rfl⟩ := Option.map_eq_some_iff.mp h
    exact twin_pure hm (L.plain trivial)

theorem Steady.holds_onStrings {depth : Nat} {op : BinaryOp} {l r : Value} {z : Eval Value}
    (h : Eval.onStrings cfg depth op l r = some z) :
    D.Holds m₀ m z fun m' => D.Val m'.heap := by
  unfold Eval.onStrings at h
  split at h
  · cases h
    refine twin_bind (holds_display hm _ _) ?_
    rintro s m' - rfl
    refine twin_bind (holds_display hm _ _) ?_
    rintro t m' - rfl
    exact twin_pure hm (L.plain trivial)
  · obtain ⟨b, -, rfl⟩ := Option.map_eq_some_iff.mp h
    exact twin_pure hm (L.plain trivial)
  · cases h

theorem Steady.holds_computed (depth : Nat) (op : BinaryOp) (l r : Value) :
    D.Holds m₀ m (Eval.computed cfg depth op l r) fun m' => D.Val m'.heap := by
  unfold Eval.computed
  dsimp only
  split
  · next z h =>
    split at h
    · exact L.holds_onNumbers hm h
    · split at h
      · exact L.holds_onStrings hm h
      · cases h
  · exact twin_fault _ hm

theorem Steady.holds_binary (depth : Nat) (op : BinaryOp) (l r : Value) :
    D.Holds m₀ m (Eval.binary cfg depth op l r) fun m' => D.Val m'.heap := by
  unfold Eval.binary
  split
  · refine twin_bind (holds_equal hm _ _ _) ?_
    rintro b m' - rfl
    exact twin_pure hm (L.plain trivial)
  · refine twin_bind (holds_equal hm _ _ _) ?_
    rintro b m' - rfl
    exact twin_pure hm (L.plain trivial)
  · exact L.holds_computed hm _ _ _ _

/-! ### Members and indices -/

theorem Steady.holds_readMember {object : Value} (hObject : D.Val m.heap object)
    (name : String) :
    D.Holds m₀ m (Eval.readMember object name) fun m' => D.Val m'.heap := by
  unfold Eval.readMember
  split
  · refine twin_bind (holds_heap hm) ?_
    rintro h m' - ⟨rfl, rfl⟩
    refine twin_pure hm ?_
    cases hMember : m'.heap.member? _ name with
    | none => exact L.plain trivial
    | some v => exact L.member hm.1 hObject hMember
  · exact twin_fault _ hm

theorem Steady.holds_memberForCall {object : Value} (hObject : D.Val m.heap object)
    (name : String) :
    D.Holds m₀ m (Eval.memberForCall object name) fun m' => D.Val m'.heap := by
  unfold Eval.memberForCall
  split
  · refine twin_bind (holds_heap hm) ?_
    rintro h m' - ⟨rfl, rfl⟩
    split
    · next hMember => exact twin_pure hm (L.member hm.1 hObject hMember)
    · exact twin_fault _ hm
  · exact twin_fault _ hm

omit L in
theorem holds_memberTarget {object : Value} (hObject : D.Val m.heap object) (name : String) :
    D.Holds m₀ m (Eval.memberTarget object name) fun m' id => D.Val m'.heap (.object id) := by
  unfold Eval.memberTarget
  split
  · exact twin_pure hm hObject
  · exact twin_fault _ hm

/-- A method of the superclass. -/
theorem Steady.holds_superMethod {σ : D.Site} {ctx : Context} {env : Env} {id : Ident}
    {span : Option Span} (hAt : D.At m.heap σ env) (hCode : D.Code σ ctx (.expr (.super id span))) :
    D.Holds m₀ m (Eval.superMethod env id.name) fun m' => D.Val m'.heap := by
  refine twin_bind (P := fun m' v => m' = m ∧ m.heap.get env "super" = .ok v)
    (holds_consult hm fun _ h => ⟨rfl, h⟩) ?_
  rintro parent m' - ⟨rfl, hParent⟩
  refine twin_bind (P := fun m'' v => m'' = m' ∧ m'.heap.get env "this" = .ok v)
    (holds_consult hm fun _ h => ⟨rfl, h⟩) ?_
  rintro self m' - ⟨rfl, hSelf⟩
  split
  · split
    · next hMethod =>
      exact twin_pure hm (L.superMethod hm.1 hAt hCode hParent hSelf hMethod)
    · exact twin_fault _ hm
  · exact twin_fault _ hm

omit L in
theorem holds_position (index : Value) (length : Nat) :
    D.Holds m₀ m (Eval.position index length) fun m' i => m' = m ∧ i < length := by
  unfold Eval.position
  split
  · split
    · next hRange =>
      simp only [Bool.and_eq_true, decide_eq_true_eq] at hRange
      exact twin_pure hm ⟨rfl, by omega⟩
    · exact twin_fault _ hm
  · exact twin_fault _ hm

theorem Steady.holds_readIndex {object : Value} (hObject : D.Val m.heap object) (index : Value) :
    D.Holds m₀ m (Eval.readIndex object index) fun m' => D.Val m'.heap := by
  unfold Eval.readIndex
  split
  · refine twin_bind (holds_heap hm) ?_
    rintro h m' - ⟨rfl, rfl⟩
    refine twin_bind (holds_position hm _ _) ?_
    rintro i m' - ⟨rfl, hi⟩
    refine twin_pure hm (L.element hm.1 hObject ?_)
    simp [Array.getD, hi]
  · refine twin_bind (holds_position hm _ _) ?_
    rintro i m' - ⟨rfl, hi⟩
    exact twin_pure hm (L.plain trivial)
  · exact twin_fault _ hm

omit L in
theorem holds_indexTarget {object : Value} (hObject : D.Val m.heap object) (index : Value) :
    D.Holds m₀ m (Eval.indexTarget object index) fun m' p => D.Val m'.heap (.array p.1) := by
  unfold Eval.indexTarget
  split
  · refine twin_bind (holds_heap hm) ?_
    rintro h m' - ⟨rfl, rfl⟩
    refine twin_bind (holds_position hm _ _) ?_
    rintro i m' - ⟨rfl, hi⟩
    exact twin_pure hm hObject
  · exact twin_fault _ hm

/-! ### Native functions -/

omit L in
theorem holds_displayAll (depth : Nat) (vs : List Value) :
    D.Holds m₀ m (Eval.displayAll cfg depth vs) fun m' _ => m' = m := by
  induction vs with
  | nil => exact twin_pure hm rfl
  | cons v rest ih =>
    refine twin_bind (holds_display hm _ _) ?_
    rintro s m' - rfl
    refine twin_bind ih ?_
    rintro ss m' - rfl
    exact twin_pure hm rfl

theorem Steady.holds_toNumber {v : Value} (hv : D.Val m.heap v) :
    D.Holds m₀ m (Eval.toNumber v) fun m' => D.Val m'.heap := by
  unfold Eval.toNumber
  split
  · exact twin_pure hm hv
  · exact twin_pure hm hv
  · split
    · exact L.holds_number hm _
    · exact twin_fault _ hm
  · exact twin_fault _ hm

theorem Steady.holds_length (v : Value) :
    D.Holds m₀ m (Eval.length v) fun m' => D.Val m'.heap := by
  unfold Eval.length
  split
  · exact twin_pure hm (L.plain trivial)
  · refine twin_bind (holds_heap hm) ?_
    rintro h m' - ⟨rfl, rfl⟩
    exact twin_pure hm (L.plain trivial)
  · exact twin_fault _ hm

theorem Steady.holds_reply {r : Reply} (hValue : ∀ v, r = .value v → D.Val m.heap v)
    (hFailure : ∀ message, D.MayFail message) :
    D.Holds m₀ m (Eval.reply r) fun m' => D.Val m'.heap := by
  cases r with
  | value v => exact twin_pure hm (hValue v rfl)
  | number x => exact L.holds_number hm x
  | fault kind message => exact twin_fault _ hm
  | range message => exact twin_throw hm trivial
  | failure message => exact twin_throw hm (hFailure message)

/-- What the console does, where it goes on and fails only as it may. -/
theorem Steady.holds_onConsole {f : Console → Except String α × Console}
    (hOnward : m.console.Onward (f m.console).2)
    (hFails : ∀ message, (f m.console).1 = .error message → m.console.Fails message) :
    D.Holds m₀ m (Eval.onConsole f) fun m' _ => m'.heap = m.heap := by
  have hNext : D.Next m { m with console := (f m.console).2 } := L.quiet hm.1 rfl rfl hOnward
  refine ⟨rfl, ?_⟩
  unfold Eval.onConsole
  cases hDone : f m.console with
  | mk done c =>
    rw [hDone] at hNext hFails
    cases done with
    | ok a => exact ⟨⟨hNext.1, L.trans hm.2 hNext.2⟩, rfl⟩
    | error message =>
      exact ⟨⟨hNext.1, L.trans hm.2 hNext.2⟩, L.console hm.1 (hFails message rfl)⟩

theorem Steady.holds_write (text : String) :
    D.Holds m₀ m (Eval.write text) fun m' _ => m'.heap = m.heap :=
  L.holds_onConsole hm (Console.onward_write text m.console) fun _ => Console.fails_of_write

theorem Steady.holds_readLine : D.Holds m₀ m Eval.readLine fun m' _ => m'.heap = m.heap :=
  L.holds_onConsole hm (Console.onward_readLine m.console) fun _ => Console.fails_of_readLine

/-- A request for values that may occur tells of such values only. -/
theorem Steady.holds_request (depth : Nat) (q : Request) (hGiven : ∀ v ∈ q.given, D.Val m.heap v) :
    D.Holds m₀ m (Eval.request cfg depth q)
      fun m' answer => ∀ v ∈ q.told answer, D.Val m'.heap v := by
  cases q with
  | write text =>
    exact twin_mono (L.holds_write hm text) fun _ _ _ _ v hv => absurd hv List.not_mem_nil
  | readLine => exact twin_mono (L.holds_readLine hm) fun _ _ _ _ v hv => absurd hv List.not_mem_nil
  | display v =>
    exact twin_mono (holds_display hm depth v) fun _ _ _ _ v hv => absurd hv List.not_mem_nil
  | number x =>
    refine twin_mono (L.holds_number hm x) fun _ _ _ hx v hv => ?_
    obtain rfl := List.mem_singleton.mp hv
    exact hx
  | elements id =>
    refine twin_bind (holds_heap hm) ?_
    rintro h m' hm' ⟨rfl, rfl⟩
    exact twin_pure hm' fun v hv => L.element hm'.1 (hGiven _ List.mem_cons_self) hv
  | field id name =>
    refine twin_bind (holds_heap hm) ?_
    rintro h m' hm' ⟨rfl, rfl⟩
    refine twin_pure hm' fun v hv => ?_
    have hField : m'.heap.field? id name = some v := Option.mem_toList.mp hv
    have hMember : m'.heap.member? id name = some v := by rw [Heap.member?, hField]
    exact L.member hm'.1 (hGiven _ List.mem_cons_self) hMember
  | newArray vs =>
    obtain ⟨hNext, hVal⟩ := L.newArray hm.1 hGiven
    refine twin_bind (P := fun m' id => D.Val m'.heap (.array id)) (L.holds_alloc hm hNext hVal) ?_
    intro id m' hm' hId
    refine twin_pure hm' fun v hv => ?_
    obtain rfl := List.mem_singleton.mp hv
    exact hId
  | setElement id i v =>
    have hId : D.Val m.heap (.array id) := hGiven _ List.mem_cons_self
    have hv : D.Val m.heap v := hGiven v (List.mem_cons_of_mem _ List.mem_cons_self)
    exact L.holds_update hm (f := (·.setElement id i v)) (L.setElement hm.1 hId hv)
      fun w hw => absurd hw List.not_mem_nil
  | setField id name v =>
    have hId : D.Val m.heap (.object id) := hGiven _ List.mem_cons_self
    have hv : D.Val m.heap v := hGiven v (List.mem_cons_of_mem _ List.mem_cons_self)
    exact L.holds_update hm (f := (·.setField id name v)) (L.setField hm.1 hId hv)
      fun w hw => absurd hw List.not_mem_nil

omit hm in
/-- The course of a call that keeps to values that may occur, with calls back that agree. -/
theorem Steady.twin_routine {callBack other : Value → List Value → Eval Value} (depth : Nat)
    (hCall : ∀ callee args m, D.Inv m → D.Val m.heap callee → (∀ v ∈ args, D.Val m.heap v) →
      D.Twin m m (callBack callee args) (other callee args) fun m' => D.Val m'.heap)
    (hFailure : ∀ message, D.MayFail message) {r : Routine} {known : Value → Prop}
    (hHonest : r.Honest known) (hKnown : ∀ v, known v → D.Val m.heap v) (hm : D.Next m₀ m) :
    D.Twin m₀ m (Eval.routine cfg callBack depth r) (Eval.routine cfg other depth r)
      fun m' => D.Val m'.heap := by
  induction r generalizing known m₀ m with
  | reply r =>
    refine L.holds_reply hm (fun v hv => ?_) hFailure
    subst hv
    exact hKnown v hHonest
  | ask q next ih =>
    refine L.twin_from hm (twin_bind (L.holds_request ⟨hm.1, L.refl m⟩ depth q
      fun v hv => hKnown v (hHonest.1 v hv)) fun answer m' hm' hTold => ?_)
    refine ih answer (hHonest.2 answer) (fun v hv => ?_) hm'
    exact hv.elim (fun hv => L.val_grows hm'.2 (hKnown v hv)) (hTold v)
  | call callee args next ih =>
    refine L.twin_from hm (twin_bind (hCall callee args m hm.1 (hKnown callee hHonest.1)
      fun v hv => hKnown v (hHonest.2.1 v hv)) fun result m' hm' hResult => ?_)
    refine ih result (hHonest.2.2 result) (fun v hv => ?_) hm'
    rcases hv with hv | rfl
    · exact L.val_grows hm'.2 (hKnown v hv)
    · exact hResult

section

variable {callBack other : Value → List Value → Eval Value} (depth : Nat)
  (hCall : ∀ callee args m, D.Inv m → D.Val m.heap callee → (∀ v ∈ args, D.Val m.heap v) →
    D.Twin m m (callBack callee args) (other callee args) fun m' => D.Val m'.heap)
  {f : Native} {args : List Value} (hNative : D.Val m.heap (.native f))
  (hArgs : ∀ v ∈ args, D.Val m.heap v)
include hCall hNative hArgs

theorem Steady.twin_runNative :
    D.Twin m₀ m (Eval.runNative cfg callBack depth f args) (Eval.runNative cfg other depth f args)
      fun m' => D.Val m'.heap := by
  have hFirst : D.Val m.heap (args.head?.getD .null) := by
    cases args with
    | nil => exact L.plain trivial
    | cons a rest => exact hArgs a List.mem_cons_self
  unfold Eval.runNative
  dsimp only
  split
  · refine twin_bind (holds_displayAll hm _ _) ?_
    rintro texts m' - rfl
    refine twin_bind (L.holds_write hm _) ?_
    intro _ m' hm' _
    exact twin_pure hm' (L.plain trivial)
  · refine twin_bind (holds_display hm _ _) ?_
    rintro text m' - rfl
    refine twin_bind (L.holds_write hm _) ?_
    intro _ m' hm' _
    refine twin_bind (L.holds_readLine hm') ?_
    intro line m' hm' _
    exact twin_pure hm' (L.plain trivial)
  · exact twin_pure hm (L.plain trivial)
  · refine twin_bind (holds_display hm _ _) ?_
    rintro text m' - rfl
    exact twin_pure hm (L.plain trivial)
  · exact L.holds_toNumber hm hFirst
  · exact L.holds_length hm _
  · next name arity =>
    obtain ⟨made, hMade, hHonest⟩ := L.host
    refine L.twin_routine depth hCall (L.foreign hNative) (hHonest m.heap name arity args hNative)
      (fun v hv => ?_) hm
    exact hv.elim (hArgs v) (hMade m.heap v)

theorem Steady.twin_callNative :
    D.Twin m₀ m (Eval.callNative cfg callBack depth f args)
      (Eval.callNative cfg other depth f args) fun m' => D.Val m'.heap := by
  unfold Eval.callNative
  split
  · exact twin_ite (fun _ => L.twin_runNative hm depth hCall hNative hArgs)
      fun _ => twin_fault _ hm
  · exact L.twin_runNative hm depth hCall hNative hArgs

end

/-! ### Definitions -/

theorem Steady.holds_defineFunc {σ : D.Site} {ctx : Context} {env : Env} {f : FuncDef}
    (hAt : D.At m.heap σ env) (hCode : D.Code σ ctx (.stmt (.func f))) :
    D.Holds m₀ m (Eval.defineFunc env f) fun _ _ => True := by
  have hId : D.Code σ ctx (.ident f.id) :=
    L.code_part (q := (ctx, .ident f.id)) hCode
      (by simp [Node.ownParts, Node.parts, Node.stmtParts])
  obtain ⟨hNext, hVal⟩ := L.newFunc hm.1 hAt hCode
  refine twin_bind (P := fun m' id => D.At m'.heap σ env ∧ D.Val m'.heap (.func id))
    (L.holds_alloc hm hNext ⟨L.at_grows hNext.2 hAt, hVal⟩) ?_
  intro id m' hm' h
  exact L.holds_declare hm' h.1 hId h.2 false

end

end Discipline

end Tern
