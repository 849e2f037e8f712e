import Tern.Proofs.Machine.Disguise

/-!
# Two runs side by side

Two runs of the same code, from machines that are alike, stay alike. What being alike means is up
to a `Simulation`: how the heaps correspond, which environments correspond, and what may differ
besides, the spans, the log and the count of statements. A `World` says which cell corresponds to
which. It grows as the runs go on, and what corresponds in a world does so in all later ones.

* `Simulation`, `Simulation.Lawful`: what corresponds, and that the operations on names respect it;
* `Simulation.Tracks`: one computation follows the other, in this world and later ones;
* `Simulation.tracks_bind` and the lemmas after it follow the operations of the machine.
-/

namespace Tern

/-- The cells of the first heap, with the names and the functions of the second. -/
def Heap.withNames (h names : Heap) : Heap :=
  { h with scopes := names.scopes, closures := names.closures }

/-- How the heaps and the environments of two runs correspond, at which depths the two may stand,
which disguise the second is in, and which of them may use up its steps before the other does.
Names that can be looked up alike are seen alike; names can also be declared where environments
stand alike. -/
structure Simulation where
  World : Type
  Later : World → World → Prop
  Heaps : World → Heap → Heap → Prop
  Sees : World → Env → Env → Prop
  Stands : World → Env → Env → Prop
  Deep : Nat → Nat → Prop
  veil : Disguise
  firstMayTire : Prop
  secondMayTire : Prop

namespace Simulation

/-- The laws of a simulation, for runs under two settings. -/
structure Lawful (S : Simulation) (cfg cfg' : Settings) : Prop where
  refl : ∀ w, S.Later w w
  trans : ∀ {w₁ w₂ w₃}, S.Later w₁ w₂ → S.Later w₂ w₃ → S.Later w₁ w₃
  sees_later : ∀ {w w' env env'}, S.Later w w' → S.Sees w env env' → S.Sees w' env env'
  stands_later : ∀ {w w' env env'}, S.Later w w' → S.Stands w env env' → S.Stands w' env env'
  sees : ∀ {w env env'}, S.Stands w env env' → S.Sees w env env'
  deeper : ∀ {d d'}, S.Deep d d' → S.Deep (d + 1) (d' + 1)
  room : ∀ {d d'}, S.Deep d d' → cfg'.room d' = cfg.room d
  host : cfg'.host = cfg.host
  limit : cfg'.maxCallDepth = cfg.maxCallDepth
  debug : ∀ log message, S.veil.log (log ++ (cfg.logger.lines .debug message).toArray) =
    S.veil.log log ++ (cfg'.logger.lines .debug message).toArray
  alike : ∀ {w h h'}, S.Heaps w h h' → h' = h.withNames h'
  cells : ∀ {w h h'}, S.Heaps w h h' → ∀ k : Heap, S.Heaps w (k.withNames h) (k.withNames h')
  closure : ∀ {w h h'}, S.Heaps w h h' → ∀ i,
    (h'.closure i).definition = (h.closure i).definition.respan S.veil.span ∧
      (h'.closure i).initializer = (h.closure i).initializer ∧
      S.Sees w (h.closure i).env (h'.closure i).env
  newClosure : ∀ {w h h' env env'}, S.Heaps w h h' → S.Sees w env env' → ∀ f initializer,
    h'.closures.size = h.closures.size ∧ S.Heaps w (h.newClosure ⟨f, env, initializer⟩).2
      (h'.newClosure ⟨f.respan S.veil.span, env', initializer⟩).2
  get : ∀ {w h h' env env'}, S.Heaps w h h' → S.Sees w env env' →
    ∀ name, h'.get env' name = h.get env name
  assign : ∀ {w h h' env env'}, S.Heaps w h h' → S.Sees w env env' → ∀ name,
    (∃ e, h.assignTarget env name = .error e ∧ h'.assignTarget env' name = .error e) ∨
      ∃ s s', h.assignTarget env name = .ok s ∧ h'.assignTarget env' name = .ok s' ∧
        ∀ b, S.Heaps w (h.bind s name b) (h'.bind s' name b)
  declare : ∀ {w h h' env env'}, S.Heaps w h h' → S.Stands w env env' → ∀ name,
    h'.checkDeclare env' name = h.checkDeclare env name ∧
      ∀ b, S.Heaps w (h.bind env.current name b) (h'.bind env'.current name b)
  enter : ∀ {w h h' env env'}, S.Heaps w h h' → S.Sees w env env' → ∀ names, ∃ w', S.Later w w' ∧
    S.Heaps w' (h.newScope names).2 (h'.newScope names).2 ∧
      S.Stands w' (env.extend h.scopes.size) (env'.extend h'.scopes.size)

/-- Machines that correspond. -/
structure Machines (S : Simulation) (w : S.World) (m m' : Machine) : Prop where
  heaps : S.Heaps w m.heap m'.heap
  console : m'.console = m.console
  log : m'.log = S.veil.log m.log
  callDepth : m'.callDepth = m.callDepth
  executed : m'.executed = S.veil.count m.executed

variable {α β γ δ : Type}

/-- Two computations end alike, in a world that is no earlier than `w`, or one that may tire has
used up its steps. -/
inductive Ends (S : Simulation) (w : S.World) (Q : S.World → α → β → Prop) :
    EStateM.Result Signal Machine α → EStateM.Result Signal Machine β → Prop
  | ok {w' : S.World} {a : α} {b : β} {m m' : Machine} (later : S.Later w w') (same : Q w' a b)
      (machines : S.Machines w' m m') : Ends S w Q (.ok a m) (.ok b m')
  | error {w' : S.World} {s : Signal} {m m' : Machine} (later : S.Later w w')
      (machines : S.Machines w' m m') : Ends S w Q (.error s m) (.error (S.veil.signal s) m')
  | first {m : Machine} {r : EStateM.Result Signal Machine β} (tires : S.firstMayTire) :
      Ends S w Q (.error .exhausted m) r
  | second {r : EStateM.Result Signal Machine α} {m' : Machine} (tires : S.secondMayTire) :
      Ends S w Q r (.error .exhausted m')

/-- From machines that correspond in the world `w`, the second computation ends as the first does,
with results that `Q` relates. -/
def Tracks (S : Simulation) (w : S.World) (Q : S.World → α → β → Prop) (x : Eval α) (y : Eval β) :
    Prop :=
  ∀ m m', S.Machines w m m' → S.Ends w Q (x m) (y m')

/-- Results that are the same. -/
def Same (S : Simulation) : S.World → α → α → Prop := fun _ a b => b = a

/-- Completions that are the same up to the disguise. -/
def Completes (S : Simulation) : S.World → Completion → Completion → Prop :=
  fun _ c c' => c' = S.veil.completion c

variable {S : Simulation} {cfg cfg' : Settings} {w w' : S.World} {Q : S.World → α → β → Prop}
  {P : S.World → γ → δ → Prop} {x : Eval α} {y : Eval β} {m m' : Machine} {h h' : Heap}
  {depth depth' : Nat} {env env' : Env}

/-! ## Machines that correspond -/

theorem Machines.withHeap (hm : S.Machines w m m') (hHeaps : S.Heaps w' h h') :
    S.Machines w' (m.withHeap h) (m'.withHeap h') :=
  ⟨hHeaps, hm.console, hm.log, hm.callDepth, hm.executed⟩

theorem Machines.atDepth (hm : S.Machines w m m') (d : Nat) :
    S.Machines w (m.atDepth d) (m'.atDepth d) :=
  ⟨hm.heaps, hm.console, hm.log, rfl, hm.executed⟩

section

variable (L : S.Lawful cfg cfg')
include L

theorem Ends.earlier (hLater : S.Later w w') {r : EStateM.Result Signal Machine α}
    {r' : EStateM.Result Signal Machine β} (hEnds : S.Ends w' Q r r') : S.Ends w Q r r' := by
  cases hEnds with
  | ok later same machines => exact .ok (L.trans hLater later) same machines
  | error later machines => exact .error (L.trans hLater later) machines
  | first tires => exact .first tires
  | second tires => exact .second tires

theorem isFull_eq (hDeep : S.Deep depth depth') : cfg'.isFull depth' = cfg.isFull depth := by
  have hRoom := L.room hDeep
  unfold Settings.room at hRoom
  unfold Settings.isFull
  cases hLimit : cfg.stackLimit with
  | none =>
    rw [hLimit] at hRoom
    rw [Option.map_eq_none_iff.mp hRoom]
  | some limit =>
    rw [hLimit] at hRoom
    obtain ⟨limit', hLimit', hLeft⟩ := Option.map_eq_some_iff.mp hRoom
    rw [hLimit']
    have hIff : limit' ≤ depth' ↔ limit ≤ depth := by
      rw [← Nat.sub_eq_zero_iff_le, ← Nat.sub_eq_zero_iff_le, hLeft]
    exact decide_eq_decide.mpr hIff

/-! ## Rules -/

theorem tracks_pure {a : α} {b : β} (hSame : Q w a b) : S.Tracks w Q (pure a) (pure b) :=
  fun _ _ hm => .ok (L.refl w) hSame hm

theorem tracks_throw (s : Signal) : S.Tracks w Q (throw s) (throw (S.veil.signal s)) :=
  fun _ _ hm => .error (L.refl w) hm

theorem tracks_fault (f : Fault) : S.Tracks w Q (Eval.fault f) (Eval.fault f) := by
  have hSignal : S.veil.signal (.fault ⟨f, none⟩) = .fault ⟨f, none⟩ :=
    congrArg (fun s => Signal.fault ⟨f, s⟩) S.veil.unplaced
  intro m m' hm
  change S.Ends w Q _ (.error (.fault ⟨f, none⟩) m')
  rw [← hSignal]
  exact .error (L.refl w) hm

theorem tracks_overflow : S.Tracks w Q Eval.overflow Eval.overflow :=
  tracks_throw L (.overflow overflowMessage)

theorem tracks_bind {f : α → Eval γ} {g : β → Eval δ} (hx : S.Tracks w Q x y)
    (hf : ∀ w', S.Later w w' → ∀ a b, Q w' a b → S.Tracks w' P (f a) (g b)) :
    S.Tracks w P (x >>= f) (y >>= g) := by
  intro m m' hm
  have hEnds := hx m m' hm
  change S.Ends w P (EStateM.bind x f m) (EStateM.bind y g m')
  unfold EStateM.bind
  generalize x m = r at hEnds ⊢
  generalize y m' = r' at hEnds ⊢
  cases hEnds with
  | ok later same machines => exact Ends.earlier L later (hf _ later _ _ same _ _ machines)
  | error later machines => exact .error later machines
  | first tires => exact .first tires
  | second tires =>
    cases r with
    | ok => exact .second tires
    | error => exact .second tires

/-- The second part does not need to know in which world it starts. -/
theorem tracks_then {f : α → Eval γ} {g : α → Eval δ} {y : Eval α} (hx : S.Tracks w S.Same x y)
    (hf : ∀ w', S.Later w w' → ∀ a, S.Tracks w' P (f a) (g a)) :
    S.Tracks w P (x >>= f) (y >>= g) := by
  refine tracks_bind L hx fun w' later a b hSame => ?_
  cases hSame
  exact hf w' later a

omit L in
theorem tracks_ite {c c' : Prop} [Decidable c] [Decidable c'] {x' : Eval α} {y' : Eval β}
    (hSame : c' ↔ c) (hx : S.Tracks w Q x y) (hx' : S.Tracks w Q x' y') :
    S.Tracks w Q (if c then x else x') (if c' then y else y') := by
  by_cases hc : c
  · rwa [if_pos hc, if_pos (hSame.mpr hc)]
  · rwa [if_neg hc, if_neg (fun hc' => hc (hSame.mp hc'))]

omit L in
theorem tracks_located (span : Option Span) (hx : S.Tracks w Q x y) :
    S.Tracks w Q (Eval.located span x) (Eval.located (S.veil.span span) y) := by
  intro m m' hm
  have hEnds := hx m m' hm
  unfold Eval.located
  generalize x m = r at hEnds ⊢
  generalize y m' = r' at hEnds ⊢
  cases hEnds with
  | ok later same machines => exact .ok later same machines
  | error later machines =>
    dsimp only
    rw [← Disguise.signal_locate]
    exact .error later machines
  | first tires => exact .first tires
  | second tires =>
    cases r with
    | ok => exact .second tires
    | error => exact .second tires

omit L in
theorem tracks_guarded (span : Option Span) {x y : Eval Completion}
    (hx : S.Tracks w S.Completes x y) :
    S.Tracks w S.Completes (Eval.guarded span x) (Eval.guarded (S.veil.span span) y) := by
  intro m m' hm
  have hEnds := hx m m' hm
  unfold Eval.guarded
  generalize x m = r at hEnds ⊢
  generalize y m' = r' at hEnds ⊢
  cases hEnds with
  | ok later same machines => exact .ok later same machines
  | @error _ s _ _ later machines =>
    dsimp only
    rw [Disguise.signal_toThrown?]
    cases s.toThrown? span with
    | some t => exact .ok later rfl machines
    | none => exact .error later machines
  | first tires => exact .first tires
  | second tires =>
    cases r with
    | ok => exact .second tires
    | error s k => exact .second tires

omit L in
theorem tracks_withCallDepth (hx : S.Tracks w Q x y) :
    S.Tracks w Q (Eval.withCallDepth x) (Eval.withCallDepth y) := by
  intro m m' hm
  have hEnds := hx _ _ (hm.atDepth (m.callDepth + 1))
  have hDepth : m'.callDepth = m.callDepth := hm.callDepth
  unfold Eval.withCallDepth
  rw [hDepth]
  unfold Machine.atDepth at hEnds
  generalize x _ = r at hEnds ⊢
  generalize y _ = r' at hEnds ⊢
  have hUp : ∀ {w₁ : S.World} {k k' : Machine}, S.Machines w₁ k k' →
      S.Machines w₁ (k.atDepth (k.callDepth - 1)) (k'.atDepth (k'.callDepth - 1)) := by
    intro w₁ k k' hk
    rw [hk.callDepth]
    exact hk.atDepth _
  cases hEnds with
  | ok later same machines => exact .ok later same (hUp machines)
  | error later machines => exact .error later (hUp machines)
  | first tires => exact .first tires
  | second tires =>
    cases r with
    | ok => exact .second tires
    | error => exact .second tires

/-! ## The heap -/

theorem tracks_get : S.Tracks w (fun w m m' => S.Machines w m m') (get : Eval Machine)
    (get : Eval Machine) :=
  fun _ _ hm => .ok (L.refl w) hm hm

theorem tracks_heap : S.Tracks w S.Heaps Eval.heap Eval.heap :=
  tracks_bind L (tracks_get L) fun _ _ _ _ hm => tracks_pure L hm.heaps

omit L in
theorem tracks_alloc {f : Heap → α × Heap} {g : Heap → β × Heap}
    (hAlloc : ∀ h h', S.Heaps w h h' →
      ∃ w', S.Later w w' ∧ Q w' (f h).1 (g h').1 ∧ S.Heaps w' (f h).2 (g h').2) :
    S.Tracks w Q (Eval.alloc f) (Eval.alloc g) := by
  intro m m' hm
  obtain ⟨w', later, hSame, hHeaps⟩ := hAlloc m.heap m'.heap hm.heaps
  exact .ok later hSame (hm.withHeap hHeaps)

/-- An addition that has nothing to do with names. -/
theorem tracks_allocCells {f : Heap → α × Heap} (hKept : ∀ h, (f h).2.withNames h = (f h).2)
    (hBlind : ∀ h names, f (Heap.withNames h names) = ((f h).1, (f h).2.withNames names)) :
    S.Tracks w S.Same (Eval.alloc f) (Eval.alloc f) := by
  refine tracks_alloc fun h h' hHeaps => ⟨w, L.refl w, ?_⟩
  have hCells := L.cells hHeaps (f h).2
  rw [hKept] at hCells
  rw [L.alike hHeaps, hBlind]
  exact ⟨rfl, hCells⟩

theorem tracks_update {f g : Heap → Heap}
    (hUpdate : ∀ h h', S.Heaps w h h' → S.Heaps w (f h) (g h')) :
    S.Tracks w S.Same (Eval.update f) (Eval.update g) :=
  fun _ _ hm => .ok (L.refl w) rfl (hm.withHeap (hUpdate _ _ hm.heaps))

/-- A change that has nothing to do with names. -/
theorem tracks_updateCells {f : Heap → Heap} (hKept : ∀ h, (f h).withNames h = f h)
    (hBlind : ∀ h names, f (Heap.withNames h names) = (f h).withNames names) :
    S.Tracks w S.Same (Eval.update f) (Eval.update f) := by
  refine tracks_update L fun h h' hHeaps => ?_
  have hCells := L.cells hHeaps (f h)
  rw [hKept] at hCells
  rw [L.alike hHeaps, hBlind]
  exact hCells

/-! ### Looking at the heap -/

theorem funcName_eq (hHeaps : S.Heaps w h h') (id : FuncId) : h'.funcName id = h.funcName id := by
  unfold Heap.funcName
  rw [(L.closure hHeaps id).1, FuncDef.id_respan, Ident.name_respan]

theorem member?_eq (hHeaps : S.Heaps w h h') (id : ObjectId) (name : String) :
    h'.member? id name = h.member? id name := by
  rw [L.alike hHeaps]
  rfl

theorem object_eq (hHeaps : S.Heaps w h h') (id : ObjectId) : h'.object id = h.object id := by
  rw [L.alike hHeaps]
  rfl

theorem elements_eq (hHeaps : S.Heaps w h h') (id : ArrayId) : h'.elements id = h.elements id := by
  rw [L.alike hHeaps]
  rfl

theorem displayIn_eq (hHeaps : S.Heaps w h h') (room : Nat) (path : List ArrayId) (v : Value) :
    h'.displayIn room path v = h.displayIn room path v := by
  induction room generalizing path v with
  | zero =>
    cases v <;> simp only [Heap.displayIn, funcName_eq L hHeaps, object_eq L hHeaps]
  | succ room ih =>
    have hInner : h'.displayIn room = h.displayIn room := by
      funext path v
      exact ih path v
    cases v <;> simp only [Heap.displayIn, funcName_eq L hHeaps, object_eq L hHeaps,
      elements_eq L hHeaps, hInner]

theorem display?_eq (hHeaps : S.Heaps w h h') (limit : Option Nat) (v : Value) :
    h'.display? limit v = h.display? limit v := by
  have hSize : h'.unbounded = h.unbounded := by
    rw [L.alike hHeaps]
    rfl
  unfold Heap.display?
  rw [hSize, displayIn_eq L hHeaps]

theorem equalIn_eq (hHeaps : S.Heaps w h h') (room : Nat) (met : Heap.Pairs) (a b : Value) :
    h'.equalIn room met a b = h.equalIn room met a b := by
  induction room generalizing met a b with
  | zero => cases a <;> cases b <;> simp only [Heap.equalIn, elements_eq L hHeaps]
  | succ room ih =>
    have hInner : h'.equalIn room = h.equalIn room := by
      funext met a b
      exact ih met a b
    cases a <;> cases b <;> simp only [Heap.equalIn, elements_eq L hHeaps, hInner]

theorem equal?_eq (hHeaps : S.Heaps w h h') (limit : Option Nat) (a b : Value) :
    h'.equal? limit a b = h.equal? limit a b := by
  have hSize : h'.arrays.size = h.arrays.size := by
    rw [L.alike hHeaps]
    rfl
  unfold Heap.equal?
  rw [hSize, equalIn_eq L hHeaps]

theorem tracks_display (hDeep : S.Deep depth depth') (v : Value) :
    S.Tracks w S.Same (Eval.display cfg depth v) (Eval.display cfg' depth' v) := by
  refine tracks_bind L (tracks_heap L) fun w' _ h h' hHeaps => ?_
  rw [display?_eq L hHeaps, L.room hDeep]
  cases h.display? (cfg.room depth) v with
  | some s => exact tracks_pure L rfl
  | none => exact tracks_overflow L

theorem tracks_equal (hDeep : S.Deep depth depth') (a b : Value) :
    S.Tracks w S.Same (Eval.equal cfg depth a b) (Eval.equal cfg' depth' a b) := by
  refine tracks_bind L (tracks_heap L) fun w' _ h h' hHeaps => ?_
  rw [equal?_eq L hHeaps, L.room hDeep]
  cases h.equal? (cfg.room depth) a b with
  | some r => exact tracks_pure L rfl
  | none => exact tracks_overflow L

/-! ## The console and the log -/

theorem tracks_onConsole (f : Console → Except String α × Console) :
    S.Tracks w S.Same (Eval.onConsole f) (Eval.onConsole f) := by
  intro m m' hm
  have hMachines : ∀ c, S.Machines w { m with console := c } { m' with console := c } :=
    fun c => ⟨hm.heaps, rfl, hm.log, hm.callDepth, hm.executed⟩
  unfold Eval.onConsole
  rw [hm.console]
  cases f m.console with
  | mk done c =>
    cases done with
    | ok a => exact .ok (L.refl w) rfl (hMachines c)
    | error message => exact .error (s := .failure message) (L.refl w) (hMachines c)

theorem tracks_write (text : String) : S.Tracks w S.Same (Eval.write text) (Eval.write text) :=
  tracks_onConsole L _

theorem tracks_readLine : S.Tracks w S.Same Eval.readLine Eval.readLine :=
  tracks_onConsole L _

theorem tracks_debug (message : String) :
    S.Tracks w S.Same (Eval.debug cfg message) (Eval.debug cfg' message) := by
  intro m m' hm
  refine .ok (L.refl w) rfl ⟨hm.heaps, hm.console, ?_, hm.callDepth, hm.executed⟩
  change m'.log ++ _ = S.veil.log (m.log ++ _)
  rw [hm.log, L.debug]

/-! ## Names -/

theorem tracks_lookup (hSees : S.Sees w env env') (name : String) :
    S.Tracks w S.Same (Eval.lookup env name) (Eval.lookup env' name) := by
  intro m m' hm
  have hGet := L.get hm.heaps hSees name
  unfold Eval.lookup Eval.consult
  dsimp only
  rw [hGet]
  cases m.heap.get env name with
  | ok v => exact .ok (L.refl w) rfl hm
  | error e => exact tracks_fault L e m m' hm

theorem tracks_declare (hStands : S.Stands w env env') (name : String) (v : Value)
    (constant : Bool) : S.Tracks w S.Same (Eval.declare env name v constant)
      (Eval.declare env' name v constant) := by
  intro m m' hm
  obtain ⟨hCheck, hBind⟩ := L.declare hm.heaps hStands name
  unfold Eval.declare
  rw [Eval.consult_bind, Eval.consult_bind, hCheck]
  cases m.heap.checkDeclare env name with
  | ok => exact .ok (L.refl w) rfl (hm.withHeap (hBind _))
  | error e => exact tracks_fault L e m m' hm

theorem tracks_assign (hSees : S.Sees w env env') (name : String) (v : Value) :
    S.Tracks w S.Same (Eval.assign env name v) (Eval.assign env' name v) := by
  intro m m' hm
  unfold Eval.assign
  rw [Eval.consult_bind, Eval.consult_bind]
  rcases L.assign hm.heaps hSees name with ⟨e, hFirst, hSecond⟩ | ⟨s, s', hFirst, hSecond, hBind⟩
  · rw [hFirst, hSecond]
    exact tracks_fault L e m m' hm
  · rw [hFirst, hSecond]
    exact .ok (L.refl w) rfl (hm.withHeap (hBind _))

theorem tracks_enter (hSees : S.Sees w env env') (names : Scope) :
    S.Tracks w S.Stands (Eval.enter env names) (Eval.enter env' names) := by
  intro m m' hm
  obtain ⟨w', later, hHeaps, hStands⟩ := L.enter hm.heaps hSees names
  exact .ok later hStands (hm.withHeap hHeaps)

theorem tracks_newClosure (hSees : S.Sees w env env') (f : FuncDef) (initializer : Bool) :
    S.Tracks w S.Same (Eval.alloc (·.newClosure ⟨f, env, initializer⟩))
      (Eval.alloc (·.newClosure ⟨f.respan S.veil.span, env', initializer⟩)) := by
  refine tracks_alloc fun h h' hHeaps => ⟨w, L.refl w, ?_⟩
  exact L.newClosure hHeaps hSees f initializer

/-! ## Operators -/

theorem tracks_number (z : Float) : S.Tracks w S.Same (Eval.number z) (Eval.number z) := by
  refine tracks_allocCells L (fun h => ?_) fun h names => ?_
  · unfold Heap.newNumber
    split <;> rfl
  · unfold Heap.newNumber
    split <;> rfl

theorem tracks_unary (op : UnaryOp) (v : Value) :
    S.Tracks w S.Same (Eval.unary op v) (Eval.unary op v) := by
  unfold Eval.unary
  split
  · exact tracks_pure L rfl
  · split
    · exact tracks_number L _
    · exact tracks_fault L _

omit L in
/-- Computations that are there or not, and one of which follows the other where they are. -/
abbrev TracksIfAny (S : Simulation) (w : S.World) :
    Option (Eval Value) → Option (Eval Value) → Prop :=
  Option.Rel fun x y => S.Tracks w S.Same x y

theorem tracks_onNumbers (op : BinaryOp) (u v : Float) :
    S.TracksIfAny w (Eval.onNumbers op u v) (Eval.onNumbers op u v) := by
  unfold Eval.onNumbers
  cases Eval.arithmetic op u v with
  | some z => exact .some (tracks_number L z)
  | none =>
    cases Eval.compareNumbers op u v with
    | some c => exact .some (tracks_pure L rfl)
    | none => exact .none

theorem tracks_onStrings (hDeep : S.Deep depth depth') (op : BinaryOp) (a b : Value) :
    S.TracksIfAny w (Eval.onStrings cfg depth op a b) (Eval.onStrings cfg' depth' op a b) := by
  unfold Eval.onStrings
  split
  · exact .some (tracks_then L (tracks_display L hDeep _) fun _ _ s =>
      tracks_then L (tracks_display L hDeep _) fun _ _ t => tracks_pure L rfl)
  · next s t _ =>
    cases Eval.compareStrings op s t with
    | some c => exact .some (tracks_pure L rfl)
    | none => exact .none
  · exact .none

/-- Where there is no computation, the operands are at fault. -/
theorem tracks_ifAny {x y : Option (Eval Value)} (fault : Fault) : S.TracksIfAny w x y →
    S.Tracks w S.Same (match x with | some x => x | none => Eval.fault fault)
      (match y with | some y => y | none => Eval.fault fault) := by
  intro h
  cases h with
  | some h => exact h
  | none => exact tracks_fault L fault

theorem tracks_computed (hDeep : S.Deep depth depth') (op : BinaryOp) (a b : Value) :
    S.Tracks w S.Same (Eval.computed cfg depth op a b) (Eval.computed cfg' depth' op a b) := by
  refine tracks_ifAny L (.operands op a.typeName b.typeName) ?_
  split
  · exact tracks_onNumbers L op _ _
  · split
    · exact tracks_onStrings L hDeep op a b
    · exact .none

theorem tracks_binary (hDeep : S.Deep depth depth') (op : BinaryOp) (a b : Value) :
    S.Tracks w S.Same (Eval.binary cfg depth op a b) (Eval.binary cfg' depth' op a b) := by
  unfold Eval.binary
  split
  · exact tracks_then L (tracks_equal L hDeep _ _) fun _ _ _ => tracks_pure L rfl
  · exact tracks_then L (tracks_equal L hDeep _ _) fun _ _ _ => tracks_pure L rfl
  · exact tracks_computed L hDeep op a b

/-! ## Members and indices -/

theorem tracks_readMember (object : Value) (name : String) :
    S.Tracks w S.Same (Eval.readMember object name) (Eval.readMember object name) := by
  unfold Eval.readMember
  split
  · refine tracks_bind L (tracks_heap L) fun w' _ h h' hHeaps => tracks_pure L ?_
    exact congrArg (·.getD .null) (member?_eq L hHeaps _ name)
  · exact tracks_fault L _

theorem tracks_memberForCall (object : Value) (name : String) :
    S.Tracks w S.Same (Eval.memberForCall object name) (Eval.memberForCall object name) := by
  unfold Eval.memberForCall
  split
  · next id =>
    refine tracks_bind L (tracks_heap L) fun w' _ h h' hHeaps => ?_
    rw [member?_eq L hHeaps, object_eq L hHeaps]
    cases h.member? id name with
    | some v => exact tracks_pure L rfl
    | none => exact tracks_fault L _
  · exact tracks_fault L _

theorem tracks_memberTarget (object : Value) (name : String) :
    S.Tracks w S.Same (Eval.memberTarget object name) (Eval.memberTarget object name) := by
  unfold Eval.memberTarget
  split
  · exact tracks_pure L rfl
  · exact tracks_fault L _

theorem tracks_superMethod (hSees : S.Sees w env env') (name : String) :
    S.Tracks w S.Same (Eval.superMethod env name) (Eval.superMethod env' name) := by
  refine tracks_then L (tracks_lookup L hSees _) fun w' later parent => ?_
  refine tracks_then L (tracks_lookup L (L.sees_later later hSees) _) fun w'' _ self => ?_
  split
  · split
    · exact tracks_pure L rfl
    · exact tracks_fault L _
  · exact tracks_fault L _

theorem tracks_position (index : Value) (length : Nat) :
    S.Tracks w S.Same (Eval.position index length) (Eval.position index length) := by
  unfold Eval.position
  split
  · exact tracks_ite Iff.rfl (tracks_pure L rfl) (tracks_fault L _)
  · exact tracks_fault L _

theorem tracks_readIndex (object index : Value) :
    S.Tracks w S.Same (Eval.readIndex object index) (Eval.readIndex object index) := by
  unfold Eval.readIndex
  split
  · refine tracks_bind L (tracks_heap L) fun w' _ h h' hHeaps => ?_
    rw [elements_eq L hHeaps]
    exact tracks_then L (tracks_position L _ _) fun _ _ i => tracks_pure L rfl
  · exact tracks_then L (tracks_position L _ _) fun _ _ i => tracks_pure L rfl
  · exact tracks_fault L _

theorem tracks_indexTarget (object index : Value) :
    S.Tracks w S.Same (Eval.indexTarget object index) (Eval.indexTarget object index) := by
  unfold Eval.indexTarget
  split
  · refine tracks_bind L (tracks_heap L) fun w' _ h h' hHeaps => ?_
    rw [elements_eq L hHeaps]
    exact tracks_then L (tracks_position L _ _) fun _ _ i => tracks_pure L rfl
  · exact tracks_fault L _

/-! ## Native functions -/

theorem tracks_displayAll (hDeep : S.Deep depth depth') (vs : List Value) :
    S.Tracks w S.Same (Eval.displayAll cfg depth vs) (Eval.displayAll cfg' depth' vs) := by
  induction vs generalizing w with
  | nil => exact tracks_pure L rfl
  | cons v rest ih =>
    exact tracks_then L (tracks_display L hDeep _) fun _ _ s =>
      tracks_then L ih fun _ _ ss => tracks_pure L rfl

theorem tracks_toNumber (v : Value) : S.Tracks w S.Same (Eval.toNumber v) (Eval.toNumber v) := by
  unfold Eval.toNumber
  split
  · exact tracks_pure L rfl
  · exact tracks_pure L rfl
  · split
    · exact tracks_number L _
    · exact tracks_fault L _
  · exact tracks_fault L _

theorem tracks_length (v : Value) : S.Tracks w S.Same (Eval.length v) (Eval.length v) := by
  unfold Eval.length
  split
  · exact tracks_pure L rfl
  · refine tracks_bind L (tracks_heap L) fun w' _ h h' hHeaps => ?_
    rw [elements_eq L hHeaps]
    exact tracks_pure L rfl
  · exact tracks_fault L _

theorem tracks_reply (answer : Reply) :
    S.Tracks w S.Same (Eval.reply answer) (Eval.reply answer) := by
  cases answer with
  | value v => exact tracks_pure L rfl
  | number x => exact tracks_number L x
  | fault kind message => exact tracks_fault L _
  | range message => exact tracks_throw L (.overflow message)
  | failure message => exact tracks_throw L (.failure message)

theorem tracks_request (hDeep : S.Deep depth depth') (q : Request) :
    S.Tracks w S.Same (Eval.request cfg depth q) (Eval.request cfg' depth' q) := by
  cases q with
  | write text => exact tracks_write L text
  | readLine => exact tracks_readLine L
  | display v => exact tracks_display L hDeep v
  | number x => exact tracks_number L x
  | elements id =>
    refine tracks_bind L (tracks_heap L) fun w' _ h h' hHeaps => ?_
    rw [elements_eq L hHeaps]
    exact tracks_pure L rfl
  | field id name =>
    refine tracks_bind L (tracks_heap L) fun w' _ h h' hHeaps => ?_
    refine tracks_pure L ?_
    change h'.field? id name = h.field? id name
    rw [Heap.field?, Heap.field?, object_eq L hHeaps]
  | newArray vs =>
    exact tracks_then L (tracks_allocCells L (fun _ => rfl) fun _ _ => rfl) fun _ _ id =>
      tracks_pure L rfl
  | setElement id i v =>
    exact tracks_updateCells L (f := (·.setElement id i v)) (fun _ => rfl) fun _ _ => rfl
  | setField id name v =>
    exact tracks_updateCells L (f := (·.setField id name v)) (fun _ => rfl) fun _ _ => rfl

section

variable {callBack other : Value → List Value → Eval Value} (hDeep : S.Deep depth depth')
  (hCall : ∀ w callee args, S.Tracks w S.Same (callBack callee args) (other callee args))
include hDeep hCall

theorem tracks_routine (r : Routine) :
    S.Tracks w S.Same (Eval.routine cfg callBack depth r) (Eval.routine cfg' other depth' r) := by
  induction r generalizing w with
  | reply r => exact tracks_reply L r
  | ask q next ih => exact tracks_then L (tracks_request L hDeep q) fun _ _ answer => ih answer
  | call callee args next ih => exact tracks_then L (hCall w callee args) fun _ _ v => ih v

theorem tracks_runNative (f : Native) (args : List Value) :
    S.Tracks w S.Same (Eval.runNative cfg callBack depth f args)
      (Eval.runNative cfg' other depth' f args) := by
  unfold Eval.runNative
  rw [L.host]
  dsimp only
  split
  · exact tracks_then L (tracks_displayAll L hDeep _) fun _ _ texts =>
      tracks_then L (tracks_write L _) fun _ _ _ => tracks_pure L rfl
  · exact tracks_then L (tracks_display L hDeep _) fun _ _ text =>
      tracks_then L (tracks_write L _) fun _ _ _ =>
        tracks_then L (tracks_readLine L) fun _ _ line => tracks_pure L rfl
  · exact tracks_pure L rfl
  · exact tracks_then L (tracks_display L hDeep _) fun _ _ text => tracks_pure L rfl
  · exact tracks_toNumber L _
  · exact tracks_length L _
  · exact tracks_routine L hDeep hCall _

theorem tracks_callNative (f : Native) (args : List Value) :
    S.Tracks w S.Same (Eval.callNative cfg callBack depth f args)
      (Eval.callNative cfg' other depth' f args) := by
  unfold Eval.callNative
  split
  · exact tracks_ite Iff.rfl (tracks_runNative L hDeep hCall _ _) (tracks_fault L _)
  · exact tracks_runNative L hDeep hCall _ _

end

/-! ## Definitions -/

theorem tracks_defineFunc (hStands : S.Stands w env env') (f : FuncDef) :
    S.Tracks w S.Same (Eval.defineFunc env f)
      (Eval.defineFunc env' (f.respan S.veil.span)) := by
  refine tracks_then L (tracks_newClosure L (L.sees hStands) f false) fun w' later id => ?_
  rw [FuncDef.id_respan]
  exact tracks_declare L (L.stands_later later hStands) _ _ _

theorem tracks_superclass (hSees : S.Sees w env env') (c : ClassDef) :
    S.Tracks w S.Same (Eval.superclass env c)
      (Eval.superclass env' (c.respan S.veil.span)) := by
  unfold Eval.superclass
  rw [ClassDef.superclass_respan, ClassDef.id_respan]
  cases c.superclass with
  | none => exact tracks_pure L rfl
  | some parent =>
    refine tracks_then L (tracks_lookup L hSees _) fun w' _ v => ?_
    split
    · exact tracks_pure L rfl
    · exact tracks_fault L _

theorem tracks_methods (hSees : S.Sees w env env') (fs : List FuncDef) (done : Table FuncId) :
    S.Tracks w S.Same (Eval.methods env fs done)
      (Eval.methods env' (fs.map (FuncDef.respan S.veil.span)) done) := by
  induction fs generalizing w done with
  | nil => exact tracks_pure L rfl
  | cons f rest ih =>
    rw [List.map_cons]
    unfold Eval.methods
    rw [FuncDef.id_respan]
    exact tracks_then L (tracks_newClosure L hSees f _) fun w' later id =>
      ih (L.sees_later later hSees) _

theorem tracks_newClass (name : String) (parent : Option Class) (methods : Table FuncId) :
    S.Tracks w S.Same (Eval.newClass name parent methods) (Eval.newClass name parent methods) :=
  tracks_allocCells L (fun _ => rfl) fun _ _ => rfl

theorem tracks_defineClass (hStands : S.Stands w env env') (c : ClassDef) :
    S.Tracks w S.Same (Eval.defineClass env c)
      (Eval.defineClass env' (c.respan S.veil.span)) := by
  refine tracks_then L (tracks_superclass L (L.sees hStands) c) fun w₁ hLater parent => ?_
  have hRest : ∀ {w₂ methodEnv methodEnv'}, S.Later w₁ w₂ → S.Sees w₂ methodEnv methodEnv' →
      S.Tracks w₂ S.Same
        (do
          let table ← Eval.methods methodEnv c.methods []
          let value ← Eval.newClass c.id.name parent table
          Eval.declare env c.id.name (.cls value) false)
        (do
          let table ← Eval.methods methodEnv' (c.respan S.veil.span).methods []
          let value ← Eval.newClass (c.respan S.veil.span).id.name parent table
          Eval.declare env' (c.respan S.veil.span).id.name (.cls value) false) := by
    intro w₂ methodEnv methodEnv' hLater₂ hSees
    rw [ClassDef.methods_respan, ClassDef.id_respan, Ident.name_respan]
    refine tracks_then L (tracks_methods L hSees c.methods []) fun w₃ hLater₃ table => ?_
    refine tracks_then L (tracks_newClass L _ _ _) fun w₄ hLater₄ value => ?_
    have hAfter := L.trans (L.trans hLater hLater₂) (L.trans hLater₃ hLater₄)
    exact tracks_declare L (L.stands_later hAfter hStands) _ _ _
  have hSees := L.sees_later hLater (L.sees hStands)
  cases parent with
  | none => exact hRest (L.refl w₁) hSees
  | some p =>
    exact tracks_bind L (tracks_enter L hSees _) fun w₂ hLater₂ _ _ hEntered =>
      hRest hLater₂ (L.sees hEntered)

theorem tracks_enterCall {c c' : Closure}
    (hDefinition : c'.definition = c.definition.respan S.veil.span) (hSees : S.Sees w c.env c'.env)
    (self : Option ObjectId) (args : List Value) :
    S.Tracks w S.Stands (Eval.enterCall c self args) (Eval.enterCall c' self args) := by
  have hNames : c'.definition.params.map (·.name) = c.definition.params.map (·.name) := by
    simp [hDefinition, Function.comp_def]
  unfold Eval.enterCall
  rw [hNames]
  cases self with
  | none => exact tracks_enter L hSees _
  | some self =>
    exact tracks_bind L (tracks_enter L hSees _) fun w' _ _ _ hEntered =>
      tracks_enter L (L.sees hEntered) _

end

end Simulation

end Tern
