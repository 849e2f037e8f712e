import Tern.Proofs.Machine.Contents
import Tern.Proofs.Machine.Defining

/-!
# Nothing dangles

Scopes and arrays are known by number, and a number that was never handed out stands for an empty
cell. No program gets to see such a cell: the scopes of every piece of code that runs, and of every
function, were made, and so was every array that a value stands for.

* `Heap.Spans`, `Heap.Knows`: the scopes of an environment, and the array of a value, were made;
* `Heap.Sound`: all that stands on the heap was made;
* `allocated`: the discipline that this is, with `allocated_lawful`;
* `Session.sound_of_meets`: every machine that a session comes by is sound.
-/

namespace Tern

namespace Heap

/-- The scopes of the environment were made. -/
def Spans (h : Heap) (env : Env) : Prop := ∀ i ∈ env.scopes, i < h.scopes.size

/-- The value is an array that was made, or no array. -/
def Knows (h : Heap) (v : Value) : Prop := ∀ i, v = .array i → i < h.arrays.size

/-- No cells were taken away. -/
structure Grew (h h' : Heap) : Prop where
  scopes : h.scopes.size ≤ h'.scopes.size
  arrays : h.arrays.size ≤ h'.arrays.size

/-- All that functions and values refer to was made. -/
structure Sound (h : Heap) : Prop where
  closures : ∀ i, h.Spans (h.closure i).env
  values : ∀ v, h.Has v → h.Knows v

variable {h h' : Heap} {env : Env} {v : Value}

theorem Grew.refl (h : Heap) : h.Grew h := ⟨Nat.le_refl _, Nat.le_refl _⟩

theorem Grew.trans {h₁ h₂ h₃ : Heap} (h : h₁.Grew h₂) (h' : h₂.Grew h₃) : h₁.Grew h₃ :=
  ⟨Nat.le_trans h.scopes h'.scopes, Nat.le_trans h.arrays h'.arrays⟩

theorem grew_of_size (hScopes : h'.scopes.size = h.scopes.size)
    (hArrays : h'.arrays.size = h.arrays.size) : h.Grew h' :=
  ⟨Nat.le_of_eq hScopes.symm, Nat.le_of_eq hArrays.symm⟩

theorem Spans.mono (hGrew : h.Grew h') (hEnv : h.Spans env) : h'.Spans env :=
  fun i hi => Nat.lt_of_lt_of_le (hEnv i hi) hGrew.scopes

theorem Knows.mono (hGrew : h.Grew h') (hv : h.Knows v) : h'.Knows v :=
  fun i hi => Nat.lt_of_lt_of_le (hv i hi) hGrew.arrays

theorem knows_of_isPlain (hv : v.IsPlain) : h.Knows v := by
  rintro i rfl
  cases hv

theorem knows_cls (c : Class) : h.Knows (.cls c) := nofun

theorem knows_object (o : ObjectId) : h.Knows (.object o) := nofun

theorem knows_func (f : FuncId) : h.Knows (.func f) := nofun

theorem knows_bound (f : FuncId) (o : ObjectId) : h.Knows (.bound f o) := nofun

theorem knows_native (f : Native) : h.Knows (.native f) := nofun

/-- The environment with a new scope in front. -/
theorem Spans.extend (hEnv : h.Spans env) (names : Scope) :
    (h.newScope names).2.Spans (env.extend h.scopes.size) := by
  have hSize : (h.newScope names).2.scopes.size = h.scopes.size + 1 := Array.size_push ..
  intro i hi
  rw [hSize]
  rcases List.mem_cons.mp hi with rfl | hi
  · exact Nat.lt_succ_self _
  · exact Nat.lt_succ_of_lt (hEnv i hi)

theorem grew_newScope (h : Heap) (names : Scope) : h.Grew (h.newScope names).2 :=
  ⟨by simp [newScope], Nat.le_refl _⟩

theorem grew_newArray (h : Heap) (es : Array Value) : h.Grew (h.newArray es).2 :=
  ⟨Nat.le_refl _, by simp [newArray]⟩

/-- A heap that grows stays sound if what is new refers to what was made. -/
theorem Sound.grow (hSound : h.Sound) (hGrew : h.Grew h')
    (hClosures : ∀ i, h'.closure i = h.closure i ∨ h'.Spans (h'.closure i).env)
    (hValues : ∀ v, h'.Has v → h.Has v ∨ h'.Knows v) : h'.Sound where
  closures i := (hClosures i).elim (fun hSame => hSame ▸ (hSound.closures i).mono hGrew) id
  values v hv := (hValues v hv).elim (fun hOld => (hSound.values v hOld).mono hGrew) id

/-- A change that makes no functions. -/
theorem Sound.grow_values (hSound : h.Sound) (hGrew : h.Grew h')
    (hClosures : h'.closures = h.closures)
    (hValues : ∀ v, h'.Has v → h.Has v ∨ h'.Knows v) : h'.Sound :=
  hSound.grow hGrew (fun i => .inl (by rw [closure, closure, hClosures])) hValues

theorem Sound.of_same (hSound : h.Sound) (hScopes : h'.scopes = h.scopes)
    (hArrays : h'.arrays = h.arrays) (hObjects : h'.objects = h.objects)
    (hClosures : h'.closures = h.closures) : h'.Sound :=
  hSound.grow_values (grew_of_size (by rw [hScopes]) (by rw [hArrays])) hClosures
    fun _ hv => .inl (has_of_same hv hScopes hArrays hObjects)

theorem Sound.newScope (hSound : h.Sound) {names : Scope}
    (hNames : ∀ e ∈ names, h.Knows e.2.value) : (h.newScope names).2.Sound := by
  refine hSound.grow_values (grew_newScope h names) rfl fun v hv => ?_
  refine (has_of_newScope hv).imp_right ?_
  rintro ⟨e, he, rfl⟩
  exact (hNames e he).mono (grew_newScope h names)

theorem Sound.bind (hSound : h.Sound) (id : ScopeId) (name : String) {b : Binding}
    (hValue : h.Knows b.value) : (h.bind id name b).Sound := by
  refine hSound.grow_values (grew_of_size (Array.size_modify ..) rfl) rfl fun v hv => ?_
  refine (has_of_bind hv).imp_right ?_
  rintro rfl
  exact hValue

theorem Sound.newArray (hSound : h.Sound) {es : Array Value}
    (hValues : ∀ v ∈ es.toList, h.Knows v) : (h.newArray es).2.Sound :=
  hSound.grow_values (grew_newArray h es) rfl fun v hv =>
    (has_of_newArray hv).imp_right fun hMem => (hValues v hMem).mono (grew_newArray h es)

theorem Sound.setElement (hSound : h.Sound) (id : ArrayId) (k : Nat) (hValue : h.Knows v) :
    (h.setElement id k v).Sound := by
  have hGrew : h.Grew (h.setElement id k v) := grew_of_size rfl (Array.size_modify ..)
  refine hSound.grow_values hGrew rfl fun w hw => (has_of_setElement hw).imp_right ?_
  rintro rfl
  exact hValue.mono hGrew

theorem Sound.setField (hSound : h.Sound) (id : ObjectId) (name : String) (hValue : h.Knows v) :
    (h.setField id name v).Sound := by
  refine hSound.grow_values (grew_of_size rfl rfl) rfl fun w hw =>
    (has_of_setField hw).imp_right ?_
  rintro rfl
  exact hValue

theorem Sound.newObject (hSound : h.Sound) (c : Class) : (h.newObject ⟨c, []⟩).2.Sound := by
  refine hSound.grow_values (grew_of_size rfl rfl) rfl fun w hw =>
    (has_of_newObject hw).imp_right ?_
  rintro rfl
  exact knows_cls c

theorem closure_newClosure (h : Heap) (c : Closure) (i : FuncId) :
    (h.newClosure c).2.closure i = if i = h.closures.size then c else h.closure i :=
  getD_push h.closures c default i

theorem Sound.newClosure (hSound : h.Sound) {c : Closure} (hEnv : h.Spans c.env) :
    (h.newClosure c).2.Sound := by
  refine hSound.grow (grew_of_size rfl rfl) (fun i => ?_)
    fun v hv => .inl (has_of_same hv rfl rfl rfl)
  rw [closure_newClosure]
  split
  · exact .inr hEnv
  · exact .inl rfl

/-! ### Classes -/

theorem grew_withClass (h : Heap) (env : Env) (c : ClassDef) (parent : Option Class) :
    h.Grew (h.withClass env c parent) := by
  refine ⟨?_, Nat.le_refl _⟩
  rw [withClass, size_append]
  exact Nat.le_add_right _ _

theorem spans_methodEnv (hEnv : h.Spans env) (c : ClassDef) (parent : Option Class) :
    (h.withClass env c parent).Spans (h.methodEnv env parent) := by
  cases parent with
  | none => exact hEnv.mono (grew_withClass h env c none)
  | some p => exact hEnv.extend [("super", ⟨.cls p, true⟩)]

theorem Sound.withClass (hSound : h.Sound) (hEnv : h.Spans env) (c : ClassDef)
    (parent : Option Class) : (h.withClass env c parent).Sound := by
  refine hSound.grow (grew_withClass h env c parent) (fun i => ?_) fun v hv =>
    (has_of_withClass hv).imp_right ?_
  · by_cases hi : i < h.closures.size
    · exact .inl (getD_append_of_lt hi)
    · obtain ⟨j, rfl⟩ := Nat.exists_eq_add_of_le (Nat.le_of_not_lt hi)
      right
      have hClosure : (h.withClass env c parent).closure (h.closures.size + j) =
          (c.methods.map (·.toMethod (h.methodEnv env parent))).getD j default :=
        getD_append_add j
      rw [hClosure, List.getD_eq_getElem?_getD, List.getElem?_map]
      cases c.methods[j]? with
      | some f => exact spans_methodEnv hEnv c parent
      | none =>
        -- a number that was not handed out stands for a function in the first scope
        have hDefault : h.closure h.closures.size = default := by simp [closure]
        have hSpans := hSound.closures h.closures.size
        rw [hDefault] at hSpans
        exact hSpans.mono (grew_withClass h env c parent)
  · rintro ⟨p, -, rfl⟩
    exact knows_cls p

end Heap

/-! ## The discipline -/

/-- All that code and values refer to was made. -/
def allocated : Discipline where
  Inv m := m.heap.Sound
  Grows m m' := m.heap.Grew m'.heap
  Val := Heap.Knows
  Site := Unit
  At h _ env := h.Spans env
  Code _ _ _ := True

section

variable {m m' : Machine} {env : Env} {v : Value}

theorem allocated_declared (hSound : m.heap.Sound) (id : ScopeId) (name : String)
    (hValue : m.heap.Knows v) (constant : Bool) :
    allocated.Next m (m.withHeap (m.heap.bind id name ⟨v, constant⟩)) :=
  ⟨hSound.bind id name hValue, Heap.grew_of_size (Array.size_modify ..) rfl⟩

theorem allocated_defineClass (hSound : m.heap.Sound) (hEnv : m.heap.Spans env) (c : ClassDef) :
    allocated.Next m ((Eval.defineClass env c).final m) := by
  rcases Eval.final_defineClass env c m with hSame | ⟨parent, -, -, hFinal⟩
  · rw [hSame]
    exact ⟨hSound, .refl _⟩
  have hNext : allocated.Next m (m.withHeap (m.heap.withClass env c parent)) :=
    ⟨hSound.withClass hEnv c parent, Heap.grew_withClass m.heap env c parent⟩
  rcases hFinal with hFinal | ⟨-, hFinal⟩
  · rw [hFinal]
    exact hNext
  · rw [hFinal]
    have hDeclared := allocated_declared (m := m.withHeap (m.heap.withClass env c parent)) hNext.1
      env.current c.id.name (Heap.knows_cls (m.heap.classOf c parent)) false
    exact ⟨hDeclared.1, hNext.2.trans hDeclared.2⟩

theorem allocated_call {closure : Closure} {self : Option ObjectId} {args : List Value}
    (hSound : m.heap.Sound) (hClosure : m.heap.Spans closure.env)
    (hArgs : ∀ v ∈ args, m.heap.Knows v)
    (hEnter : Eval.enterCall closure self args m = .ok env m') :
    m'.heap.Sound ∧ m.heap.Grew m'.heap ∧ m'.heap.Spans env := by
  have hParams : ∀ {h : Heap} {env : Env}, h.Sound → m.heap.Grew h → h.Spans env →
      (h.newScope (Eval.paramScope closure.definition args)).2.Sound ∧
      m.heap.Grew (h.newScope (Eval.paramScope closure.definition args)).2 ∧
      (h.newScope (Eval.paramScope closure.definition args)).2.Spans
        (env.extend h.scopes.size) := by
    intro h env hSound hGrew hEnv
    refine ⟨hSound.newScope fun e he => ?_, hGrew.trans (Heap.grew_newScope h _), hEnv.extend _⟩
    exact (hArgs _ (mem_paramScope he).2).mono hGrew
  cases self with
  | none =>
    rw [Eval.enterCall_func] at hEnter
    cases hEnter
    exact hParams hSound (.refl _) hClosure
  | some o =>
    rw [Eval.enterCall_method] at hEnter
    cases hEnter
    have hSize : (m.heap.newScope [("this", ⟨.object o, true⟩)]).2.scopes.size =
        m.heap.scopes.size + 1 := Array.size_push ..
    have hThis : (m.heap.newScope [("this", ⟨.object o, true⟩)]).2.Sound := by
      refine hSound.newScope fun e he => ?_
      obtain rfl := List.mem_singleton.mp he
      exact Heap.knows_object o
    have hEntered := hParams hThis (Heap.grew_newScope m.heap _)
      (hClosure.extend [("this", ⟨.object o, true⟩)])
    rw [hSize] at hEntered
    exact hEntered

end

theorem allocated_lawful {cfg : Settings} (hHost : cfg.host.Honest) : allocated.Lawful cfg where
  refl m := .refl m.heap
  trans := .trans
  val_grows := Heap.Knows.mono
  at_grows := Heap.Spans.mono
  code_part _ _ := trivial
  plain := Heap.knows_of_isPlain
  lookup hInv _ hGet := Heap.Sound.values hInv _ (Heap.has_of_get hGet)
  superMethod _ _ _ _ _ _ := Heap.knows_bound _ _
  element hInv _ hMem := Heap.Sound.values hInv _ (.element hMem)
  member hInv _ hMember := by
    rcases Heap.has_of_member? hMember with hHas | ⟨f, rfl⟩
    · exact Heap.Sound.values hInv _ hHas
    · exact Heap.knows_bound f _
  host := Discipline.trusts_of_honest hHost (fun _ _ => Heap.knows_of_isPlain) fun _ => Heap.knows_native
  foreign _ _ := trivial
  console _ _ := trivial
  quiet {m m'} hInv hHeap _ _ := by
    refine ⟨?_, ?_⟩
    · change m'.heap.Sound
      rw [hHeap]
      exact hInv
    · change m.heap.Grew m'.heap
      rw [hHeap]
      exact .refl _
  countNan hInv := ⟨Heap.Sound.of_same hInv rfl rfl rfl rfl, Heap.grew_of_size rfl rfl⟩
  newArray {m vs} hInv hValues := by
    have hSound : (m.heap.newArray vs.toArray).2.Sound :=
      Heap.Sound.newArray hInv fun v hv => hValues v hv
    refine ⟨⟨hSound, Heap.grew_newArray _ _⟩, ?_⟩
    rintro i ⟨⟩
    simp [Heap.newArray]
  newObject {m c} hInv _ :=
    ⟨⟨Heap.Sound.newObject hInv c, Heap.grew_of_size rfl rfl⟩, Heap.knows_object _,
      fun f _ => Heap.knows_bound f _⟩
  setField hInv _ hValue := ⟨Heap.Sound.setField hInv _ _ hValue, Heap.grew_of_size rfl rfl⟩
  setElement hInv _ hValue :=
    ⟨Heap.Sound.setElement hInv _ _ hValue, Heap.grew_of_size rfl (Array.size_modify ..)⟩
  newScope hInv hAt hNames :=
    ⟨⟨Heap.Sound.newScope hInv fun b hb => (hNames b hb).2, Heap.grew_newScope _ _⟩,
      Heap.Spans.extend hAt _⟩
  declare hInv _ _ hValue _ := allocated_declared hInv _ _ hValue _
  assign hInv _ _ hValue _ := allocated_declared hInv _ _ hValue _
  newFunc hInv hAt _ :=
    ⟨⟨Heap.Sound.newClosure hInv hAt, Heap.grew_of_size rfl rfl⟩, Heap.knows_func _⟩
  defineClass hInv hAt _ := allocated_defineClass hInv hAt _
  call hInv _ hArgs _ _ hEnter := by
    obtain ⟨hSound, hGrew, hEnv⟩ := allocated_call hInv (Heap.Sound.closures hInv _) hArgs hEnter
    exact ⟨hSound, ⟨(), .top, hEnv, fun _ _ => trivial⟩, fun m₂ hm₂ =>
      ⟨hm₂.1, hGrew.trans hm₂.2⟩⟩

/-! ## Sessions -/

theorem sound_create (opts : Session.Options) (natives : List Native) :
    (Session.create opts .empty natives).machine.heap.Sound := by
  refine ⟨fun i => ?_, fun v hv => ?_⟩
  · have hDefault : (Session.create opts .empty natives).machine.heap.closure i = default := by
      simp [Session.create, Session.attach, Heap.closure, Heap.newScope, Heap.empty]
    rw [hDefault]
    intro j hj
    obtain rfl := List.mem_singleton.mp hj
    exact Nat.one_pos
  · rcases Heap.has_of_newScope (h := .empty) hv with hEmpty | ⟨e, he, rfl⟩
    · exact absurd hEmpty (Heap.not_has_empty v)
    · obtain ⟨f, -, rfl⟩ := List.mem_map.mp (Table.mem_of_mem_ofList he)
      exact Heap.knows_native f

/-- Every machine that a session comes by is sound, if the host makes nothing up. -/
theorem Session.sound_of_meets {s : Session} {steps : List Session.Step} {x : Machine}
    (hHost : s.settings.host.Honest) (hSound : s.machine.heap.Sound)
    (hGlobals : s.machine.heap.Spans s.globals) (hMeets : s.Meets steps x) : x.heap.Sound :=
  (allocated_lawful hHost).inv_of_meets (σ := ()) (fun _ _ => trivial) hSound hGlobals hMeets

end Tern
