import Tern.Proofs.Machine.ControlFlow
import Tern.Proofs.Value.Growth

/-!
# Receivers

The code of a method only ever runs inside a call of that method on an instance of its class.
Two scopes carry what the code needs: one for `this`, made for the call, and one for `super`,
made for the class. Closures, bound methods and nested classes all keep these scopes in reach,
because every function value remembers where it was made.

* `MethodOf`: a function on the heap is a method of a class;
* `InCall`: an environment is one of a call of a method;
* `WellBound`: what is known of every value there is;
* `receivers`: the discipline that all of this is;
* `receivers_bound`: `this` and `super` always stand for what they should.
-/

namespace Tern

/-! ## Classes -/

namespace Class

/-- A class made from a definition. -/
def MadeOf (C : Class) (c : ClassDef) : Prop :=
  C.name = c.id.name ∧ C.parent?.isSome = c.superclass.isSome ∧
    ∃ n, C.decl.methods = methodTable n c.methods []

theorem self_mem_lineage (C : Class) : C ∈ C.lineage := by
  cases C with
  | base d => exact List.mem_singleton.mpr rfl
  | derived d p => exact List.mem_cons_self

theorem mem_lineage_trans {B C D : Class} (hB : B ∈ C.lineage) (hC : C ∈ D.lineage) :
    B ∈ D.lineage := by
  induction D with
  | base d =>
    obtain rfl := List.mem_singleton.mp hC
    exact hB
  | derived d p ih =>
    rcases List.mem_cons.mp hC with rfl | hC
    · exact hB
    · exact List.mem_cons_of_mem _ (ih hC)

theorem parent_mem_lineage {C p : Class} (h : C.parent? = some p) : p ∈ C.lineage := by
  cases C with
  | base d => cases h
  | derived d q =>
    cases h
    exact List.mem_cons_of_mem _ (self_mem_lineage _)

/-- A method is found in the class or one of its superclasses. -/
theorem mem_of_findMethod? {C : Class} {name : String} {f : FuncId}
    (h : C.findMethod? name = some f) : ∃ B ∈ C.lineage, (name, f) ∈ B.decl.methods := by
  induction C with
  | base d => exact ⟨base d, self_mem_lineage _, Table.mem_of_lookup h⟩
  | derived d p ih =>
    rw [findMethod?] at h
    split at h
    · next hOwn =>
      cases h
      exact ⟨derived d p, self_mem_lineage _, Table.mem_of_lookup hOwn⟩
    · obtain ⟨B, hB, hMem⟩ := ih h
      exact ⟨B, List.mem_cons_of_mem _ hB, hMem⟩

end Class

/-- The methods of a class are numbered in order. -/
theorem mem_methodTable {n : Nat} {fs : List FuncDef} {done : Table FuncId} {e : String × FuncId}
    (h : e ∈ methodTable n fs done) :
    e ∈ done ∨ ∃ j f, fs[j]? = some f ∧ e.2 = n + j := by
  induction fs generalizing n done with
  | nil => exact .inl h
  | cons f rest ih =>
    rcases ih h with hDone | ⟨j, g, hg, hNumber⟩
    · rcases Table.mem_of_mem_set hDone with hOld | rfl
      · exact .inl hOld
      · exact .inr ⟨0, f, rfl, rfl⟩
    · exact .inr ⟨j + 1, g, hg, by rw [hNumber, Nat.add_assoc, Nat.add_comm 1]⟩

/-! ## Methods and their calls -/

/-- The function `f` is a method of the class `C`, and finds the superclass under `super`. -/
structure MethodOf (h : Heap) (C : Class) (f : FuncId) : Prop where
  known : f < h.closures.size
  own : ∃ name, (name, f) ∈ C.decl.methods
  made : ∃ c ctx, C.MadeOf c ∧ (h.closure f).definition ∈ c.methods ∧
    Node.Placed ctx (.stmt (.cls c))
  parent : ∀ p, C.parent? = some p → ∃ s rest, (h.closure f).env.scopes = s :: rest ∧
    s < h.scopes.size ∧ (h.scope s).lookup "super" = some ⟨.cls p, true⟩

theorem MethodOf.mono {h h' : Heap} {C : Class} {f : FuncId} (hf : MethodOf h C f)
    (hGrows : h.Extends h') : MethodOf h' C f := by
  have hSame := hGrows.closure f hf.known
  refine ⟨Nat.lt_of_lt_of_le hf.known hGrows.closures, hf.own, ?_, ?_⟩
  · rw [hSame]
    exact hf.made
  · intro p hp
    obtain ⟨s, rest, hScopes, hs, hSuper⟩ := hf.parent p hp
    refine ⟨s, rest, by rw [hSame, hScopes], Nat.lt_of_lt_of_le hs hGrows.scopes, ?_⟩
    rw [hGrows.reserved s hs "super" (.inr rfl), hSuper]

/-- A method of a class, with its definition. -/
structure MethodSite where
  cls : Class
  func : FuncId
  definition : FuncDef

/-- The environment is one of a call of the method: the scopes of the call and of what is nested
in it, the scope of `this`, and the scopes of the method. -/
structure InCall (h : Heap) (σ : MethodSite) (env : Env) : Prop where
  method : MethodOf h σ.cls σ.func
  definition : (h.closure σ.func).definition = σ.definition
  receiver : ∃ nested s o, env.scopes = nested ++ s :: (h.closure σ.func).env.scopes ∧
    (∀ i ∈ nested, i < h.scopes.size ∧ ∀ word, IsReserved word → (h.scope i).lookup word = none) ∧
    s < h.scopes.size ∧ (h.scope s).lookup "this" = some ⟨.object o, true⟩ ∧
    (h.scope s).lookup "super" = none ∧ o < h.objects.size ∧ σ.cls ∈ (h.object o).cls.lineage

namespace InCall

variable {h h' : Heap} {σ : MethodSite} {env : Env}

theorem mono (hCall : InCall h σ env) (hGrows : h.Extends h') : InCall h' σ env := by
  have hSame := hGrows.closure σ.func hCall.method.known
  obtain ⟨nested, s, o, hScopes, hNested, hs, hThis, hSuper, ho, hClass⟩ := hCall.receiver
  refine ⟨hCall.method.mono hGrows, by rw [hSame, hCall.definition], nested, s, o,
    by rw [hSame, hScopes], ?_, Nat.lt_of_lt_of_le hs hGrows.scopes, ?_, ?_,
    Nat.lt_of_lt_of_le ho hGrows.objects, by rw [hGrows.cls o ho]; exact hClass⟩
  · intro i hi
    obtain ⟨hLt, hFree⟩ := hNested i hi
    refine ⟨Nat.lt_of_lt_of_le hLt hGrows.scopes, fun word hWord => ?_⟩
    rw [hGrows.reserved i hLt word hWord, hFree word hWord]
  · rw [hGrows.reserved s hs "this" (.inl rfl), hThis]
  · rw [hGrows.reserved s hs "super" (.inr rfl), hSuper]

/-- A further scope, without `this` and `super`. -/
theorem extend (hCall : InCall h σ env) {names : Scope}
    (hNames : ∀ word, IsReserved word → names.lookup word = none) :
    InCall (h.newScope names).2 σ (env.extend h.scopes.size) := by
  have hGrown := hCall.mono (Heap.extends_newScope h names)
  obtain ⟨nested, s, o, hScopes, hNested, hRest⟩ := hGrown.receiver
  refine ⟨hGrown.method, hGrown.definition, h.scopes.size :: nested, s, o, ?_, ?_, hRest⟩
  · rw [List.cons_append, ← hScopes]
    rfl
  · refine List.forall_mem_cons.mpr ⟨⟨?_, fun word hWord => ?_⟩, hNested⟩
    · simp [Heap.newScope]
    · rw [Heap.scope_newScope, if_pos rfl]
      exact hNames word hWord

/-- `this` is an instance of the class of the method or of one derived from it. -/
theorem this (hCall : InCall h σ env) :
    ∃ o, h.get env "this" = .ok (.object o) ∧ o < h.objects.size ∧
      σ.cls ∈ (h.object o).cls.lineage := by
  obtain ⟨nested, s, o, hScopes, hNested, -, hThis, -, ho, hClass⟩ := hCall.receiver
  refine ⟨o, ?_, ho, hClass⟩
  exact Heap.get_of_find? hScopes (fun i hi => (hNested i hi).2 "this" (.inl rfl)) hThis

/-- `super` is the superclass of the class of the method. -/
theorem super (hCall : InCall h σ env) {p : Class} (hParent : σ.cls.parent? = some p) :
    h.get env "super" = .ok (.cls p) := by
  obtain ⟨nested, s, o, hScopes, hNested, -, -, hNone, -⟩ := hCall.receiver
  obtain ⟨s', rest, hMethod, -, hSuper⟩ := hCall.method.parent p hParent
  have hBefore : ∀ i ∈ nested ++ [s], (h.scope i).lookup "super" = none := by
    intro i hi
    rcases List.mem_append.mp hi with hi | hi
    · exact (hNested i hi).2 "super" (.inr rfl)
    · obtain rfl := List.mem_singleton.mp hi
      exact hNone
  have hSplit : env.scopes = (nested ++ [s]) ++ s' :: rest := by
    rw [hScopes, hMethod]
    simp
  exact Heap.get_of_find? hSplit hBefore hSuper

end InCall

/-! ## Values -/

/-- Where code stands: in a method of a class, or in no class. -/
def Standing (h : Heap) : Option MethodSite → Env → Prop
  | some σ, env => InCall h σ env
  | none, _ => True

/-- The code of a method that stands in no class inside of it, or code that stands in no class
at all. -/
def Belongs : Option MethodSite → Context → Node → Prop
  | some σ, ctx, n => Node.Placed ctx n ∧ ∃ ctx₀, ctx₀.enclosing = some σ.cls.parent?.isSome ∧
      Node.Inside ctx₀ (.stmt (.func σ.definition)) ctx n
  | none, ctx, n => Node.Placed ctx n ∧ ctx.enclosing = none

/-- What is known of a value: functions stand where they were made, bound methods belong to the
class of their instance or one of its superclasses, and classes have methods of their own. -/
def WellBound (h : Heap) : Value → Prop
  | .func f => f < h.closures.size ∧ ∃ σ ctx, Standing h σ (h.closure f).env ∧
      Belongs σ ctx (.stmt (.func (h.closure f).definition))
  | .bound f o => o < h.objects.size ∧ ∃ C ∈ (h.object o).cls.lineage, MethodOf h C f
  | .cls c => ∀ C ∈ c.lineage, ∀ e ∈ C.decl.methods, MethodOf h C e.2
  | .object o => o < h.objects.size
  | _ => True

theorem Standing.mono {h h' : Heap} {σ : Option MethodSite} {env : Env} (hGrows : h.Extends h')
    (hStanding : Standing h σ env) : Standing h' σ env := by
  cases σ with
  | none => trivial
  | some σ => exact InCall.mono hStanding hGrows

theorem WellBound.mono {h h' : Heap} {v : Value} (hGrows : h.Extends h') (hv : WellBound h v) :
    WellBound h' v := by
  cases v with
  | func f =>
    obtain ⟨hf, σ, ctx, hStanding, hCode⟩ := hv
    have hSame := hGrows.closure f hf
    refine ⟨Nat.lt_of_lt_of_le hf hGrows.closures, σ, ctx, ?_, ?_⟩
    · rw [hSame]
      exact hStanding.mono hGrows
    · rw [hSame]
      exact hCode
  | bound f o =>
    obtain ⟨ho, C, hC, hf⟩ := hv
    refine ⟨Nat.lt_of_lt_of_le ho hGrows.objects, C, ?_, hf.mono hGrows⟩
    rw [hGrows.cls o ho]
    exact hC
  | cls c => exact fun C hC e he => (hv C hC e he).mono hGrows
  | object o => exact Nat.lt_of_lt_of_le hv hGrows.objects
  | null | bool | number | nan | string | array | native => trivial

theorem wellBound_of_isPlain {h : Heap} {v : Value} (hv : v.IsPlain) : WellBound h v := by
  cases v with
  | null | bool | number | nan | string | array | native => trivial
  | func | bound | cls | object => cases hv

/-- A method found from a class of the lineage of an instance can be bound to the instance. -/
theorem wellBound_of_findMethod? {h : Heap} {o : ObjectId} {c : Class} {name : String}
    {f : FuncId} (ho : o < h.objects.size) (hObject : WellBound h (.cls (h.object o).cls))
    (hc : c ∈ (h.object o).cls.lineage) (hFind : c.findMethod? name = some f) :
    WellBound h (.bound f o) := by
  obtain ⟨B, hB, hMem⟩ := Class.mem_of_findMethod? hFind
  have hLineage := Class.mem_lineage_trans hB hc
  exact ⟨ho, B, hLineage, hObject B hLineage (name, f) hMem⟩

/-! ## Heaps -/

/-- Everything on the heap is well bound. -/
structure Heap.WellBound (h : Heap) : Prop where
  scopes : ∀ i, ∀ e ∈ h.scope i, Tern.WellBound h e.2.value
  elements : ∀ i, ∀ v ∈ (h.elements i).toList, Tern.WellBound h v
  classes : ∀ i, Tern.WellBound h (.cls (h.object i).cls)
  fields : ∀ i, ∀ e ∈ (h.object i).fields, Tern.WellBound h e.2

namespace Heap.WellBound

variable {h h' : Heap}

/-- A heap that grows stays well bound if whatever is new is well bound. -/
theorem grow (hBound : h.WellBound) (hGrows : h.Extends h')
    (hScopes : ∀ i, ∀ e ∈ h'.scope i, e ∈ h.scope i ∨ Tern.WellBound h' e.2.value)
    (hElements : ∀ i, ∀ v ∈ (h'.elements i).toList,
      v ∈ (h.elements i).toList ∨ Tern.WellBound h' v)
    (hClasses : ∀ i, (h'.object i).cls = (h.object i).cls ∨
      Tern.WellBound h' (.cls (h'.object i).cls))
    (hFields : ∀ i, ∀ e ∈ (h'.object i).fields,
      e ∈ (h.object i).fields ∨ Tern.WellBound h' e.2) : h'.WellBound where
  scopes i e he := (hScopes i e he).elim (fun hOld => (hBound.scopes i e hOld).mono hGrows) id
  elements i v hv := (hElements i v hv).elim (fun hOld => (hBound.elements i v hOld).mono hGrows) id
  classes i := (hClasses i).elim (fun hOld => hOld ▸ (hBound.classes i).mono hGrows) id
  fields i e he := (hFields i e he).elim (fun hOld => (hBound.fields i e hOld).mono hGrows) id

theorem get (hBound : h.WellBound) {env : Env} {name : String} {v : Value}
    (hGet : h.get env name = .ok v) : Tern.WellBound h v := by
  obtain ⟨s, b, hFound, rfl⟩ := Heap.exists_of_get hGet
  exact hBound.scopes s (name, b) (Table.mem_of_lookup hFound)

theorem member (hBound : h.WellBound) {id : ObjectId} {name : String} {v : Value}
    (hId : id < h.objects.size) (hMember : h.member? id name = some v) : Tern.WellBound h v := by
  rw [Heap.member?] at hMember
  split at hMember
  · next hField =>
    cases hMember
    exact hBound.fields id (name, v) (Table.mem_of_lookup hField)
  · obtain ⟨f, hFind, rfl⟩ := Option.map_eq_some_iff.mp hMember
    exact wellBound_of_findMethod? hId (hBound.classes id) (Class.self_mem_lineage _) hFind

/-- A new scope of well-bound values. -/
theorem newScope (hBound : h.WellBound) {names : Scope}
    (hNames : ∀ e ∈ names, Tern.WellBound h e.2.value) : (h.newScope names).2.WellBound := by
  have hGrows := Heap.extends_newScope h names
  refine hBound.grow hGrows ?_ (fun _ _ hv => .inl hv) (fun _ => .inl rfl) (fun _ _ he => .inl he)
  intro i e he
  rw [Heap.scope_newScope] at he
  split at he
  · exact .inr ((hNames e he).mono hGrows)
  · exact .inl he

/-- A name, which is not a reserved word, gets a well-bound value. -/
theorem bind (hBound : h.WellBound) {id : ScopeId} {name : String} {v : Value} {constant : Bool}
    (hName : ¬IsReserved name) (hv : Tern.WellBound h v) :
    (h.bind id name ⟨v, constant⟩).WellBound := by
  have hGrows : h.Extends (h.bind id name ⟨v, constant⟩) := Heap.extends_bind hName
  refine hBound.grow hGrows ?_ (fun _ _ hv => .inl hv) (fun _ => .inl rfl) (fun _ _ he => .inl he)
  intro i e he
  rw [Heap.scope_bind] at he
  split at he
  · rcases Table.mem_of_mem_set he with hOld | rfl
    · exact .inl hOld
    · exact .inr (hv.mono hGrows)
  · exact .inl he

theorem newClosure (hBound : h.WellBound) (c : Closure) : (h.newClosure c).2.WellBound :=
  hBound.grow (Heap.extends_newClosure h c) (fun _ _ he => .inl he) (fun _ _ hv => .inl hv)
    (fun _ => .inl rfl) (fun _ _ he => .inl he)

theorem newArray (hBound : h.WellBound) {vs : List Value}
    (hValues : ∀ v ∈ vs, Tern.WellBound h v) : (h.newArray vs.toArray).2.WellBound := by
  have hGrows : h.Extends (h.newArray vs.toArray).2 := Heap.extends_of_same rfl rfl rfl
  refine hBound.grow hGrows (fun _ _ he => .inl he) ?_ (fun _ => .inl rfl) (fun _ _ he => .inl he)
  intro i v hv
  rw [Heap.elements_newArray] at hv
  split at hv
  · exact .inr ((hValues v hv).mono hGrows)
  · exact .inl hv

theorem setElement (hBound : h.WellBound) {id : ArrayId} {k : Nat} {v : Value}
    (hValue : Tern.WellBound h v) : (h.setElement id k v).WellBound := by
  have hGrows : h.Extends (h.setElement id k v) := Heap.extends_of_same rfl rfl rfl
  refine hBound.grow hGrows (fun _ _ he => .inl he) ?_ (fun _ => .inl rfl) (fun _ _ he => .inl he)
  intro i w hw
  rw [Heap.elements_setElement] at hw
  split at hw
  · rw [Array.toList_setIfInBounds] at hw
    rcases List.mem_or_eq_of_mem_set hw with hOld | rfl
    · exact .inl hOld
    · exact .inr (hValue.mono hGrows)
  · exact .inl hw

theorem newObject (hBound : h.WellBound) {c : Class} (hc : Tern.WellBound h (.cls c)) :
    (h.newObject ⟨c, []⟩).2.WellBound := by
  have hGrows := Heap.extends_newObject h ⟨c, []⟩
  refine hBound.grow hGrows (fun _ _ he => .inl he) (fun _ _ hv => .inl hv) ?_ ?_
  · intro i
    rw [Heap.object_newObject]
    split
    · exact .inr (hc.mono hGrows)
    · exact .inl rfl
  · intro i e he
    rw [Heap.object_newObject] at he
    split at he
    · cases he
    · exact .inl he

theorem setField (hBound : h.WellBound) {id : ObjectId} {name : String} {v : Value}
    (hValue : Tern.WellBound h v) : (h.setField id name v).WellBound := by
  have hGrows := Heap.extends_setField h id name v
  refine hBound.grow hGrows (fun _ _ he => .inl he) (fun _ _ hv => .inl hv)
    (fun i => .inl (Heap.cls_setField h id name v i)) ?_
  intro i e he
  rw [Heap.object_setField] at he
  split at he
  · rcases Table.mem_of_mem_set he with hOld | rfl
    · exact .inl hOld
    · exact .inr (hValue.mono hGrows)
  · exact .inl he

end Heap.WellBound

/-! ## Definitions of classes -/

section

variable {h : Heap} {env : Env} {c : ClassDef} {parent : Option Class}

theorem Heap.extends_withClass (h : Heap) (env : Env) (c : ClassDef) (parent : Option Class) :
    h.Extends (h.withClass env c parent) :=
  Heap.extends_append (Heap.superScope parent)
    (c.methods.map (·.toMethod (h.methodEnv env parent))) rfl rfl rfl

theorem parent?_classOf (h : Heap) (c : ClassDef) (parent : Option Class) :
    (h.classOf c parent).parent? = parent := by
  cases parent <;> rfl

theorem decl_classOf (h : Heap) (c : ClassDef) (parent : Option Class) :
    (h.classOf c parent).decl =
      ⟨h.classes, c.id.name, methodTable h.closures.size c.methods []⟩ := by
  cases parent <;> rfl

theorem madeOf_classOf (h : Heap) (hSome : parent.isSome = c.superclass.isSome) :
    (h.classOf c parent).MadeOf c := by
  refine ⟨?_, ?_, h.closures.size, ?_⟩
  · rw [Class.name, decl_classOf]
  · rw [parent?_classOf, hSome]
  · rw [decl_classOf]

/-- The functions that a class definition adds are the methods of the class. -/
theorem methodOf_classOf {ctx : Context} (hPlaced : Node.Placed ctx (.stmt (.cls c)))
    (hSome : parent.isSome = c.superclass.isSome) {e : String × FuncId}
    (he : e ∈ (h.classOf c parent).decl.methods) :
    MethodOf (h.withClass env c parent) (h.classOf c parent) e.2 := by
  have hOwn : e ∈ methodTable h.closures.size c.methods [] := by
    rw [decl_classOf] at he
    exact he
  rcases mem_methodTable hOwn with hNil | ⟨j, f, hf, hNumber⟩
  · cases hNil
  have hj : j < c.methods.length := (List.getElem?_eq_some_iff.mp hf).1
  have hClosure : (h.withClass env c parent).closure e.2 =
      f.toMethod (h.methodEnv env parent) := by
    rw [hNumber]
    refine (getD_append_add j).trans ?_
    simp [List.getD_eq_getElem?_getD, hf]
  refine ⟨?_, ⟨e.1, he⟩, ⟨c, ctx, madeOf_classOf h hSome, ?_, hPlaced⟩, ?_⟩
  · rw [hNumber]
    change _ < (h.closures ++ c.methods.map (·.toMethod (h.methodEnv env parent))).size
    rw [size_append, List.length_map]
    exact Nat.add_lt_add_left hj _
  · rw [hClosure]
    exact List.mem_of_getElem? hf
  · intro p hp
    rw [parent?_classOf] at hp
    subst hp
    refine ⟨h.scopes.size, env.scopes, by rw [hClosure]; rfl, ?_, ?_⟩
    · change _ < (h.scopes.push _).size
      simp
    · have hScope : (h.withClass env c (some p)).scope h.scopes.size = _ :=
        Heap.scope_newScope h [("super", ⟨.cls p, true⟩)] h.scopes.size
      rw [hScope, if_pos rfl]
      simp

/-- A class definition leaves the heap well bound, and the class it makes is well bound. -/
theorem Heap.WellBound.withClass (hBound : h.WellBound) (env : Env) {ctx : Context}
    (hPlaced : Node.Placed ctx (.stmt (.cls c))) (hSome : parent.isSome = c.superclass.isSome)
    (hParent : ∀ p ∈ parent, Tern.WellBound h (.cls p)) :
    (h.withClass env c parent).WellBound ∧
      Tern.WellBound (h.withClass env c parent) (.cls (h.classOf c parent)) := by
  have hGrows := Heap.extends_withClass h env c parent
  constructor
  · refine hBound.grow hGrows ?_ (fun _ _ hv => .inl hv) (fun _ => .inl rfl)
      (fun _ _ he => .inl he)
    intro i e he
    cases parent with
    | none => exact .inl he
    | some p =>
      have hScope : (h.withClass env c (some p)).scope i = _ :=
        Heap.scope_newScope h [("super", ⟨.cls p, true⟩)] i
      rw [hScope] at he
      split at he
      · obtain rfl := List.mem_singleton.mp he
        exact .inr ((hParent p rfl).mono hGrows)
      · exact .inl he
  · intro C hC e he
    have hCases : C = h.classOf c parent ∨ ∃ p ∈ parent, C ∈ p.lineage := by
      cases parent with
      | none => exact .inl (List.mem_singleton.mp hC)
      | some p => exact (List.mem_cons.mp hC).imp id fun hC => ⟨p, rfl, hC⟩
    rcases hCases with rfl | ⟨p, hp, hC⟩
    · exact methodOf_classOf hPlaced hSome he
    · exact (hParent p hp C hC e he).mono hGrows

end

/-! ## The discipline -/

/-- Code of methods runs in calls of methods. -/
def receivers : Discipline where
  Inv m := m.heap.WellBound
  Grows m m' := m.heap.Extends m'.heap
  Val := WellBound
  Site := Option MethodSite
  At := Standing
  Code := Belongs

section

variable {σ : Option MethodSite} {ctx : Context} {env : Env} {m : Machine}

theorem Belongs.placed {n : Node} (h : Belongs σ ctx n) : Node.Placed ctx n := by
  cases σ with
  | none => exact h.1
  | some σ => exact h.1

theorem Belongs.part {n : Node} {q : Context × Node} (h : Belongs σ ctx n)
    (hq : q ∈ n.ownParts ctx) : Belongs σ q.1 q.2 := by
  have hPlaced := h.placed.part (Node.mem_parts_of_own hq)
  cases σ with
  | none => exact ⟨hPlaced, (Node.enclosing_of_own hq).trans h.2⟩
  | some σ =>
    obtain ⟨-, ctx₀, hEnclosing, hInside⟩ := h
    exact ⟨hPlaced, ctx₀, hEnclosing, .part hInside hq⟩

theorem Belongs.name {id : Ident} (h : Belongs σ ctx (.ident id)) : ¬IsReserved id.name :=
  not_isReserved_of_isName h.placed.allowed

/-- Names are no reserved words. -/
theorem lookup_names {names : Scope}
    (h : ∀ b ∈ names, ∃ id : Ident, id.name = b.1 ∧ Belongs σ ctx (.ident id)) {word : String}
    (hWord : IsReserved word) : names.lookup word = none := by
  refine Table.lookup_eq_none fun b hb hSame => ?_
  obtain ⟨id, hId, hCode⟩ := h b hb
  exact hCode.name (by rw [hId, hSame]; exact hWord)

theorem Standing.extend {h : Heap} {names : Scope} (hStanding : Standing h σ env)
    (hNames : ∀ word, IsReserved word → names.lookup word = none) :
    Standing (h.newScope names).2 σ (env.extend h.scopes.size) := by
  cases σ with
  | none => trivial
  | some σ => exact InCall.extend hStanding hNames

/-- Code with `super` in it runs in a call of a method of a class with a superclass. -/
theorem inCall_of_super {h : Heap} {id : Ident} {span : Option Span}
    (hStanding : Standing h σ env) (hCode : Belongs σ ctx (.expr (.super id span))) :
    ∃ site parent, σ = some site ∧ InCall h site env ∧ site.cls.parent? = some parent := by
  have hAllowed : ctx.enclosing = some true := hCode.placed.allowed
  cases σ with
  | none =>
    have hNone : ctx.enclosing = none := hCode.2
    rw [hNone] at hAllowed
    cases hAllowed
  | some site =>
    obtain ⟨-, ctx₀, hEnclosing, hInside⟩ := hCode
    have hSome : site.cls.parent?.isSome = true := by
      rw [hInside.enclosing, hEnclosing] at hAllowed
      exact Option.some.inj hAllowed
    obtain ⟨parent, hParent⟩ := Option.isSome_iff_exists.mp hSome
    exact ⟨site, parent, rfl, hStanding, hParent⟩

theorem receivers_superMethod {id : Ident} {span : Option Span} {c : Class} {o : ObjectId}
    {f : FuncId} (hBound : m.heap.WellBound) (hStanding : Standing m.heap σ env)
    (hCode : Belongs σ ctx (.expr (.super id span)))
    (hSuper : m.heap.get env "super" = .ok (.cls c))
    (hThis : m.heap.get env "this" = .ok (.object o)) (hFind : c.findMethod? id.name = some f) :
    WellBound m.heap (.bound f o) := by
  obtain ⟨site, parent, -, hCall, hParent⟩ := inCall_of_super hStanding hCode
  obtain ⟨o', hThis', ho, hClass⟩ := hCall.this
  rw [hThis] at hThis'
  cases hThis'
  rw [hCall.super hParent] at hSuper
  cases hSuper
  have hLineage := Class.mem_lineage_trans (Class.parent_mem_lineage hParent) hClass
  exact wellBound_of_findMethod? ho (hBound.classes o) hLineage hFind

theorem receivers_defineClass {c : ClassDef} (hBound : m.heap.WellBound)
    (hCode : Belongs σ ctx (.stmt (.cls c))) :
    receivers.Next m ((Eval.defineClass env c).final m) := by
  have hPlaced := hCode.placed
  have hName : ¬IsReserved c.id.name :=
    (hCode.part (q := (ctx, .ident c.id)) List.mem_cons_self).name
  rcases Eval.final_defineClass env c m with hSame | ⟨parent, hSome, hParent, hFinal⟩
  · rw [hSame]
    exact ⟨hBound, .refl _⟩
  have hGrows := Heap.extends_withClass m.heap env c parent
  obtain ⟨hClass, hValue⟩ := hBound.withClass env hPlaced hSome fun p hp => by
    obtain ⟨id, -, hGet⟩ := hParent p hp
    exact hBound.get hGet
  rcases hFinal with hFinal | ⟨-, hFinal⟩
  · rw [hFinal]
    exact ⟨hClass, hGrows⟩
  · rw [hFinal]
    exact ⟨hClass.bind hName hValue, hGrows.trans (Heap.extends_bind hName)⟩

/-! ## Calls -/

theorem mem_paramScope {f : FuncDef} {args : List Value} {b : String × Binding}
    (h : b ∈ Eval.paramScope f args) : (∃ id ∈ f.params, id.name = b.1) ∧ b.2.value ∈ args := by
  have hMem := List.of_mem_zip (Table.mem_of_mem_ofList h)
  obtain ⟨id, hId, hName⟩ := List.mem_map.mp hMem.1
  obtain ⟨v, hv, hBinding⟩ := List.mem_map.mp hMem.2
  exact ⟨⟨id, hId, hName⟩, by rw [← hBinding]; exact hv⟩

/-- The scope of the parameters, on top of where the function stands. -/
theorem receivers_params {h : Heap} {f : FuncDef} {args : List Value} (hBound : h.WellBound)
    (hStanding : Standing h σ env) (hCode : Belongs σ ctx (.stmt (.func f)))
    (hArgs : ∀ v ∈ args, WellBound h v) :
    (h.newScope (Eval.paramScope f args)).2.WellBound ∧
      Standing (h.newScope (Eval.paramScope f args)).2 σ (env.extend h.scopes.size) ∧
      ∀ s ∈ f.body.body, Belongs σ ctx.func (.stmt s) := by
  have hParam : ∀ id ∈ f.params, Belongs σ ctx (.ident id) := by
    intro id hId
    refine hCode.part (q := (ctx, .ident id)) (List.mem_append_left _ ?_)
    exact List.mem_map_of_mem (List.mem_cons_of_mem _ (List.mem_map_of_mem hId))
  have hBody : Belongs σ ctx.func (.block f.body) :=
    hCode.part (q := (ctx.func, .block f.body))
      (by simp [Node.ownParts, Node.parts, Node.stmtParts])
  refine ⟨hBound.newScope fun b hb => hArgs _ (mem_paramScope hb).2, ?_, ?_⟩
  · have hNames : ∀ b ∈ Eval.paramScope f args,
        ∃ id : Ident, id.name = b.1 ∧ Belongs σ ctx (.ident id) := by
      intro b hb
      obtain ⟨⟨id, hId, hName⟩, -⟩ := mem_paramScope hb
      exact ⟨id, hName, hParam id hId⟩
    exact hStanding.extend fun word hWord => lookup_names hNames hWord
  · intro s hs
    refine hBody.part (q := (ctx.func, .stmt s)) ?_
    exact List.mem_map_of_mem (List.mem_map_of_mem hs)

/-- The scope of `this`, on top of the scopes of a method. -/
theorem receivers_this {h : Heap} {C : Class} {f : FuncId} {o : ObjectId} (hBound : h.WellBound)
    (hMethod : MethodOf h C f) (ho : o < h.objects.size) (hC : C ∈ (h.object o).cls.lineage) :
    (h.newScope [("this", ⟨.object o, true⟩)]).2.WellBound ∧
      InCall (h.newScope [("this", ⟨.object o, true⟩)]).2 ⟨C, f, (h.closure f).definition⟩
        ((h.closure f).env.extend h.scopes.size) := by
  have hGrows := Heap.extends_newScope h [("this", ⟨.object o, true⟩)]
  have hScope := Heap.scope_newScope h [("this", ⟨.object o, true⟩)] h.scopes.size
  rw [if_pos rfl] at hScope
  constructor
  · refine hBound.newScope fun b hb => ?_
    obtain rfl := List.mem_singleton.mp hb
    exact ho
  · refine ⟨hMethod.mono hGrows, rfl, [], h.scopes.size, o, rfl, by simp, ?_, ?_, ?_, ho, hC⟩
    · simp [Heap.newScope]
    · rw [hScope]
      rfl
    · rw [hScope]
      rfl

theorem belongs_of_method {h : Heap} {C : Class} {f : FuncId} (hMethod : MethodOf h C f) :
    ∃ ctx, Belongs (some ⟨C, f, (h.closure f).definition⟩) ctx
      (.stmt (.func (h.closure f).definition)) := by
  obtain ⟨c, ctx, ⟨-, hSome, -⟩, hMem, hPlaced⟩ := hMethod.made
  refine ⟨ctx.cls c.superclass.isSome, hPlaced.part ?_, ctx.cls c.superclass.isSome, ?_, .root⟩
  · exact List.mem_append_right _ (List.mem_map_of_mem hMem)
  · rw [hSome]
    rfl

theorem receivers_call {m₁ : Machine} {id : FuncId} {self : Option ObjectId} {args : List Value}
    (hBound : m.heap.WellBound) (hCallee : WellBound m.heap (.callee id self))
    (hArgs : ∀ v ∈ args, WellBound m.heap v)
    (hEnter : Eval.enterCall (m.heap.closure id) self args m = .ok env m₁) :
    m₁.heap.WellBound ∧ m.heap.Extends m₁.heap ∧
      ∃ σ ctx, Standing m₁.heap σ env ∧
        ∀ s ∈ (m.heap.closure id).definition.body.body, Belongs σ ctx (.stmt s) := by
  cases self with
  | none =>
    obtain ⟨-, σ, ctx, hStanding, hCode⟩ := hCallee
    rw [Eval.enterCall_func] at hEnter
    cases hEnter
    obtain ⟨hWell, hHere, hBody⟩ := receivers_params hBound hStanding hCode hArgs
    exact ⟨hWell, Heap.extends_newScope _ _, σ, ctx.func, hHere, hBody⟩
  | some o =>
    obtain ⟨ho, C, hC, hMethod⟩ := hCallee
    rw [Eval.enterCall_method] at hEnter
    cases hEnter
    obtain ⟨ctx, hCode⟩ := belongs_of_method hMethod
    obtain ⟨hBound', hCall⟩ := receivers_this hBound hMethod ho hC
    have hGrows := Heap.extends_newScope m.heap [("this", ⟨.object o, true⟩)]
    have hParams := receivers_params (σ := some _) hBound' hCall hCode
      fun v hv => (hArgs v hv).mono hGrows
    have hSize : (m.heap.newScope [("this", ⟨.object o, true⟩)]).2.scopes.size =
        m.heap.scopes.size + 1 := by simp [Heap.newScope]
    rw [hSize] at hParams
    exact ⟨hParams.1, hGrows.trans (Heap.extends_newScope _ _), _, ctx.func, hParams.2⟩

end

theorem receivers_lawful {cfg : Settings} (hHost : cfg.host.Honest) : receivers.Lawful cfg where
  refl m := .refl m.heap
  trans := .trans
  val_grows := WellBound.mono
  at_grows := Standing.mono
  code_part := Belongs.part
  plain := wellBound_of_isPlain
  lookup hInv _ hGet := Heap.WellBound.get hInv hGet
  superMethod hInv hAt hCode hSuper hThis hFind :=
    receivers_superMethod hInv hAt hCode hSuper hThis hFind
  element hInv _ hMem := Heap.WellBound.elements hInv _ _ hMem
  member hInv hId hMember := Heap.WellBound.member hInv hId hMember
  host := Discipline.trusts_of_honest hHost (fun _ _ => wellBound_of_isPlain) fun _ _ => trivial
  foreign _ _ := trivial
  console _ _ := trivial
  quiet {m m'} hInv hHeap _ _ := by
    refine ⟨?_, ?_⟩
    · change m'.heap.WellBound
      rw [hHeap]
      exact hInv
    · change m.heap.Extends m'.heap
      rw [hHeap]
      exact .refl _
  countNan hInv := ⟨Heap.WellBound.grow hInv (Heap.extends_of_same rfl rfl rfl)
    (fun _ _ he => .inl he) (fun _ _ hv => .inl hv) (fun _ => .inl rfl) (fun _ _ he => .inl he),
    Heap.extends_of_same rfl rfl rfl⟩
  newArray hInv hValues :=
    ⟨⟨Heap.WellBound.newArray hInv hValues, Heap.extends_of_same rfl rfl rfl⟩, trivial⟩
  newObject {m c} hInv hClass := by
    have hGrows := Heap.extends_newObject m.heap ⟨c, []⟩
    have hBound := Heap.WellBound.newObject hInv hClass
    have hObject := Heap.object_newObject m.heap ⟨c, []⟩ m.heap.objects.size
    rw [if_pos rfl] at hObject
    have hId : m.heap.objects.size < (m.heap.newObject ⟨c, []⟩).2.objects.size := by
      simp [Heap.newObject]
    refine ⟨⟨hBound, hGrows⟩, hId, fun f hFind => ?_⟩
    refine wellBound_of_findMethod? hId (hBound.classes _) ?_ hFind
    rw [hObject]
    exact Class.self_mem_lineage c
  setField hInv _ hValue :=
    ⟨Heap.WellBound.setField hInv hValue, Heap.extends_setField _ _ _ _⟩
  setElement hInv _ hValue :=
    ⟨Heap.WellBound.setElement hInv hValue, Heap.extends_of_same rfl rfl rfl⟩
  newScope hInv hAt hNames :=
    ⟨⟨Heap.WellBound.newScope hInv fun b hb => (hNames b hb).2, Heap.extends_newScope _ _⟩,
      hAt.extend fun _ hWord => lookup_names (fun b hb => (hNames b hb).1) hWord⟩
  declare hInv _ hCode hValue _ :=
    ⟨Heap.WellBound.bind hInv hCode.name hValue, Heap.extends_bind hCode.name⟩
  assign hInv _ hCode hValue _ :=
    ⟨Heap.WellBound.bind hInv hCode.name hValue, Heap.extends_bind hCode.name⟩
  newFunc {m σ ctx env f} hInv hAt hCode := by
    have hGrows := Heap.extends_newClosure m.heap ⟨f, env, false⟩
    have hClosure : (m.heap.newClosure ⟨f, env, false⟩).2.closure m.heap.closures.size =
        ⟨f, env, false⟩ := by
      refine (getD_push m.heap.closures _ default m.heap.closures.size).trans ?_
      rw [if_pos rfl]
    refine ⟨⟨Heap.WellBound.newClosure hInv _, hGrows⟩, ?_, σ, ctx, ?_, ?_⟩
    · simp [Heap.newClosure]
    · rw [hClosure]
      exact Standing.mono hGrows hAt
    · rw [hClosure]
      exact hCode
  defineClass hInv _ hCode := receivers_defineClass hInv hCode
  call hInv hCallee hArgs _ _ hEnter := by
    obtain ⟨hBound, hGrows, σ, ctx, hAt, hBody⟩ := receivers_call hInv hCallee hArgs hEnter
    exact ⟨hBound, ⟨σ, ctx, hAt, hBody⟩, fun m₂ hm₂ => ⟨hm₂.1, hGrows.trans hm₂.2⟩⟩

/-! ## Sessions -/

theorem wellBound_create (opts : Session.Options) (natives : List Native) :
    (Session.create opts .empty natives).machine.heap.WellBound := by
  have hEmpty : Heap.empty.WellBound := by
    refine ⟨?_, ?_, ?_, ?_⟩
    · intro i e he
      simp [Heap.scope, Heap.empty] at he
    · intro i v hv
      simp [Heap.elements, Heap.empty] at hv
    · intro i C hC e he
      simp [Heap.object, Heap.empty, default, Class.lineage] at hC
      subst hC
      cases he
    · intro i e he
      simp [Heap.object, Heap.empty, default] at he
  refine hEmpty.newScope fun e he => ?_
  obtain ⟨f, -, rfl⟩ := List.mem_map.mp (Table.mem_of_mem_ofList he)
  trivial

theorem receivers_topLevel {n : Node} (h : Node.Read .top n) : receivers.TopLevel n :=
  ⟨none, .top, ⟨h.placed, rfl⟩, fun _ _ => trivial⟩

/-- The class `C` is the innermost one around the node: the node stands in a method of `C` and
in no class inside of the method, and it runs in the scopes of that method. -/
def Encloses (h : Heap) (env : Env) (n : Node) (C : Class) : Prop :=
  ∃ c f, C.MadeOf c ∧ (∃ name, (name, f) ∈ C.decl.methods) ∧
    (h.closure f).definition ∈ c.methods ∧
    (∃ ctx ctx', Node.Inside ctx (.stmt (.func (h.closure f).definition)) ctx' n) ∧
    (h.closure f).env.scopes <:+ env.scopes

theorem InCall.encloses {h : Heap} {site : MethodSite} {env : Env} {ctx : Context} {n : Node}
    (hCall : InCall h site env) (hCode : Belongs (some site) ctx n) :
    Encloses h env n site.cls := by
  obtain ⟨c, -, hMade, hMem, -⟩ := hCall.method.made
  obtain ⟨-, ctx₀, -, hInside⟩ := hCode
  obtain ⟨nested, s, -, hScopes, -⟩ := hCall.receiver
  refine ⟨c, site.func, hMade, hCall.method.own, hMem, ⟨ctx₀, ctx, ?_⟩, ?_⟩
  · rw [hCall.definition]
    exact hInside
  · exact ⟨nested ++ [s], by rw [hScopes]; simp⟩

/-- Code with `this` in it runs in a call of a method. -/
theorem inCall_of_this {h : Heap} {env : Env} {σ : Option MethodSite} {ctx : Context}
    {span : Option Span} (hStanding : Standing h σ env)
    (hCode : Belongs σ ctx (.expr (.this span))) : ∃ site, σ = some site ∧ InCall h site env := by
  have hAllowed : ctx.enclosing ≠ none := hCode.placed.allowed
  cases σ with
  | none => exact absurd hCode.2 hAllowed
  | some site => exact ⟨site, rfl, hStanding⟩

theorem superMethod_eq {env : Env} {m : Machine} {parent : Class} {o : ObjectId} (name : String)
    (hSuper : m.heap.get env "super" = .ok (.cls parent))
    (hThis : m.heap.get env "this" = .ok (.object o)) :
    Eval.superMethod env name m =
      match parent.findMethod? name with
      | some f => .ok (.bound f o) m
      | none => .error (.fault ⟨.undefinedSuperMethod name parent.name, none⟩) m := by
  unfold Eval.superMethod Eval.lookup
  rw [Eval.consult_bind, hSuper]
  dsimp only
  rw [Eval.consult_bind, hThis]
  dsimp only
  cases parent.findMethod? name <;> rfl

/-- However sources are read and run one after another in a session with an honest host: when
`this` is evaluated, it is an instance of the class around it or of one derived from that; and
when `super` is evaluated, it is moreover the superclass of the class around it, where the
method is then looked up. -/
theorem receivers_bound (opts : Session.Options) (natives : List Native) (s : Session)
    (source : String) (p : Program) (t : Task) (m : Machine) (hHost : opts.host.Honest)
    (hReached : (Session.create opts .empty natives).Reached (Node.Read .top) s)
    (hParse : Program.parse? source = .ok p) (hPasses : s.Passes p t m) :
    (∀ depth env span, t = .evaluate depth env (.this span) →
      ∃ C o, Encloses m.heap env (.expr (.this span)) C ∧
        m.heap.get env "this" = .ok (.object o) ∧ o < m.heap.objects.size ∧
        C ∈ (m.heap.object o).cls.lineage) ∧
    ∀ depth env id span, t = .evaluate depth env (.super id span) →
      ∃ C parent o, Encloses m.heap env (.expr (.super id span)) C ∧ C.parent? = some parent ∧
        m.heap.get env "super" = .ok (.cls parent) ∧
        m.heap.get env "this" = .ok (.object o) ∧ o < m.heap.objects.size ∧
        C ∈ (m.heap.object o).cls.lineage ∧
        Eval.superMethod env id.name m =
          match parent.findMethod? id.name with
          | some f => .ok (.bound f o) m
          | none => .error (.fault ⟨.undefinedSuperMethod id.name parent.name, none⟩) m := by
  have hStart : (Session.create opts .empty natives).settings.host.Honest := hHost
  have hInv := ((receivers_lawful hStart).next_of_reached (fun n hn => receivers_topLevel hn)
    (wellBound_create opts natives) hReached).1
  have L : receivers.Lawful s.settings := by
    rw [hReached.settings_eq]
    exact receivers_lawful hStart
  have hFits := (L.fits_of_sessionPasses hInv
    (receivers_topLevel (Node.read_of_parse hParse)) hPasses).2
  constructor
  · rintro depth env span rfl
    obtain ⟨σ, ctx, hStanding, hCode⟩ := hFits
    obtain ⟨site, rfl, hCall⟩ := inCall_of_this hStanding hCode
    obtain ⟨o, hThis, ho, hClass⟩ := hCall.this
    exact ⟨site.cls, o, hCall.encloses hCode, hThis, ho, hClass⟩
  · rintro depth env id span rfl
    obtain ⟨σ, ctx, hStanding, hCode⟩ := hFits
    obtain ⟨site, parent, rfl, hCall, hParent⟩ := inCall_of_super hStanding hCode
    obtain ⟨o, hThis, ho, hClass⟩ := hCall.this
    have hSuper := hCall.super hParent
    exact ⟨site.cls, parent, o, hCall.encloses hCode, hParent, hSuper, hThis, ho, hClass,
      superMethod_eq id.name hSuper hThis⟩

/-! ### A method that asks for its superclass -/

namespace SuperSample

open Tern.Span (columns)

/-- The method of the superclass. -/
abbrev inherited : Expr := .super ⟨"m", columns 47 48⟩ (columns 41 48)

/-- The initializer of the derived class. -/
def initializer : FuncDef :=
  ⟨⟨"init", columns 32 36⟩, [], ⟨[.simple (.expr inherited (columns 41 48))], columns 39 51⟩,
    columns 27 51⟩

/-- The call that makes an instance. -/
abbrev creation : Expr := .call (.name ⟨"B", columns 54 55⟩) [] (columns 54 57)

/-- Two classes, and an instance of the derived one. -/
def program : Program :=
  ⟨[.cls ⟨⟨"A", columns 7 8⟩, none, [], columns 1 12⟩,
    .cls ⟨⟨"B", columns 19 20⟩, some ⟨"A", columns 23 24⟩, [initializer], columns 13 53⟩,
    .simple (.expr creation (columns 54 57))], columns 1 58⟩

def base : Class := .base ⟨0, "A", []⟩

def derived : Class := .derived ⟨1, "B", [("init", 0)]⟩ base

/-- The machine when both classes are there. -/
def machine : Machine :=
  { Session.standard.machine with
    heap :=
      { scopes := #[Session.globalScope Native.standard ++
          [("A", ⟨.cls base, false⟩), ("B", ⟨.cls derived, false⟩)], [("super", ⟨.cls base, true⟩)]]
        arrays := #[]
        objects := #[]
        closures := #[⟨initializer, ⟨1, [0]⟩, true⟩]
        classes := 2
        nans := 0 }
    executed := 2 }

theorem starts : Starts Session.standard.settings Session.standard.halt Session.standard.globals
    program.body Session.standard.machine
    (.simple (.expr creation (columns 54 57))) machine :=
  .later rfl rfl (.later rfl rfl (.first rfl))

/-- The scopes of the call. -/
def env : Env := ⟨3, [2, 1, 0]⟩

/-- The machine when the call has been entered: the instance and the scopes of `this` and of the
parameters are there. -/
def entered : Machine :=
  { machine with
    heap := { machine.heap with
      scopes := (machine.heap.scopes.push [("this", ⟨.object 0, true⟩)]).push []
      objects := #[⟨derived, []⟩] } }

/-- The run of the call comes by `super`, if six steps are allowed and one more. -/
theorem moment (k : Nat) : Moment Session.standard.settings (k + 1 + 6)
    (.evaluate 0 Session.standard.globals creation) machine (k + 1) (.evaluate 2 env inherited)
    (entered.atDepth 1) := by
  have hEnter : Eval.enterCall ⟨initializer, ⟨1, [0]⟩, true⟩ (some 0) []
      (machine.withHeap (machine.heap.newObject ⟨derived, []⟩).2) = .ok env entered := rfl
  have hApply : Needs Session.standard.settings (run Session.standard.settings (k + 1 + 5))
      (.evaluate 0 Session.standard.globals creation) machine
      (.apply 1 (.cls derived) []) machine := needs_apply rfl rfl rfl
  have hCall := Moment.part (.part .start hApply) (needs_initializer rfl)
  have hBody := hCall.part (needs_body rfl hEnter)
  have hFirst := hBody.part needs_first
  have hSimple := hFirst.part (needs_simple rfl)
  exact hSimple.part needs_expression

set_option maxRecDepth 100000 in
theorem parses :
    Program.parse? "class A { } class B < A { func init() { super.m; } } B();" = .ok program := by
  have hTokens : ∃ stream,
      TokenStream.ofSource "class A { } class B < A { func init() { super.m; } } B();" = stream ∧
        Program.ofStream? stream = .ok program := by
    refine ⟨?stream, ?scanned, ?read⟩
    case scanned =>
      cbv
      rfl
    case read => rfl
  obtain ⟨stream, hStream, hRead⟩ := hTokens
  rw [Program.parse?, hStream, hRead]

end SuperSample

open SuperSample in
/-- The initializer of a derived class that asks for a method of its superclass. -/
theorem receivers_bound_initializer :
    Program.parse? "class A { } class B < A { func init() { super.m; } } B();" =
      .ok SuperSample.program ∧
    Session.standard.Passes SuperSample.program (.evaluate 2 env inherited) (entered.atDepth 1) ∧
    ∃ C parent o, C.parent? = some parent ∧ entered.heap.get env "super" = .ok (.cls parent) ∧
      entered.heap.get env "this" = .ok (.object o) ∧ C ∈ (entered.heap.object o).cls.lineage := by
  obtain ⟨k, hFuel⟩ := exists_fuel (n := 7) (by decide)
  have hMoment := moment k
  rw [show k + 1 + 6 = Session.standard.settings.fuel from hFuel.symm] at hMoment
  have hPasses : Session.standard.Passes SuperSample.program (.evaluate 2 env inherited)
      (entered.atDepth 1) :=
    .run #[] ⟨_, _, _, starts, hMoment⟩
  have hHost := Session.Options.honest_standard
  obtain ⟨C, parent, o, -, hParent, hSuper, hThis, -, hClass, -⟩ :=
    (receivers_bound _ _ Session.standard _ _ _ _ hHost .start parses hPasses).2 2 env _ _ rfl
  exact ⟨parses, hPasses, C, parent, o, hParent, hSuper, hThis, hClass⟩

end Tern
