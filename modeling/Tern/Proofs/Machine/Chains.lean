import Tern.Proofs.Machine.Contents
import Tern.Proofs.Machine.Members
import Tern.Proofs.Machine.Numbering

/-!
# Chains of superclasses

A class points to the superclass that it was made with. That one was there before, so its number
is smaller, and the chain of superclasses comes to an end. The number of a class stands for this
class and no other as long as the session lasts: there is one register of all the classes that a
session ever makes, and every class that stands on its heap is the one entered there.

* `Register`, `Class.Entered`, `Class.Chained`: a class, with its superclasses, is in the register;
* `Heap.Registered`: so is every class on the heap;
* `chained`: the discipline that this is, which lasts while classes are entered as they are made;
* `Session.register`: the register of a session, made of the definitions that it executes;
* `classes_wellFounded`: the chains of superclasses over the history of a session.
-/

namespace Tern

/-! ## Methods -/

namespace Class

/-- A method is looked up in one class of the lineage after the other. -/
theorem findMethod?_eq_findSome? (name : String) (c : Class) :
    c.findMethod? name = c.lineage.findSome? (·.decl.methods.lookup name) := by
  induction c with
  | base d =>
    rw [findMethod?, lineage, List.findSome?_singleton]
    rfl
  | derived d p ih =>
    have hOwn : (derived d p).decl = d := rfl
    rw [findMethod?, lineage, List.findSome?_cons, hOwn]
    cases d.methods.lookup name with
    | some f => rfl
    | none => exact ih

/-- The methods of the class are those of the definition, and functions on the heap. -/
def WrittenAs (h : Heap) (B : Class) (d : ClassDef) : Prop :=
  B.name = d.id.name ∧ B.parent?.isSome = d.superclass.isSome ∧
    ∃ n, B.decl.methods = methodTable n d.methods [] ∧
      ∀ j f, d.methods[j]? = some f →
        n + j < h.closures.size ∧ (h.closure (n + j)).definition = f

end Class

/-- Of the methods of one name, the last is in the table. -/
theorem lookup_methodTable {define : FuncId → FuncDef} {n : Nat} {fs : List FuncDef}
    (hDefine : ∀ j f, fs[j]? = some f → define (n + j) = f) (done : Table FuncId) (name : String) :
    ((methodTable n fs done).lookup name).map define =
      (fs.reverse.find? (·.id.name = name)).or ((done.lookup name).map define) := by
  induction fs generalizing n done with
  | nil => rfl
  | cons f rest ih =>
    have hRest : ∀ j g, rest[j]? = some g → define (n + 1 + j) = g := by
      intro j g hg
      rw [Nat.add_assoc, Nat.add_comm 1]
      exact hDefine (j + 1) g hg
    rw [methodTable, ih hRest, List.reverse_cons, List.find?_append, Option.or_assoc]
    congr 1
    by_cases hName : f.id.name = name
    · have hFirst := hDefine 0 f rfl
      subst hName
      rw [Table.lookup_set_self]
      simpa using hFirst
    · rw [Table.lookup_set_ne fun hSame => hName hSame.symm]
      simp [hName]

/-- What a class itself has under a name is the last method of that name in its definition. -/
theorem Class.WrittenAs.lookup {h : Heap} {B : Class} {d : ClassDef} (hWritten : B.WrittenAs h d)
    (name : String) :
    (B.decl.methods.lookup name).map (fun f => (h.closure f).definition) =
      d.methods.reverse.find? (·.id.name = name) := by
  obtain ⟨-, -, n, hMethods, hFuncs⟩ := hWritten
  rw [hMethods, lookup_methodTable (fun j f hf => (hFuncs j f hf).2)]
  exact Option.or_none

/-! ## The register -/

/-- Which class was given a number, and the definition that made it. -/
abbrev Register := Nat → Class × ClassDef

/-- Numbers and functions are there still. -/
structure Heap.KeepsNumbers (h h' : Heap) : Prop where
  classes : h.classes ≤ h'.classes
  closures : h.closures.size ≤ h'.closures.size
  closure : ∀ i < h.closures.size, h'.closure i = h.closure i

/-- The class is the one that the register has under its number. Its superclass has a smaller one. -/
structure Class.Entered (R : Register) (h : Heap) (B : Class) : Prop where
  registered : (R B.decl.id).1 = B
  known : B.decl.id < h.classes
  above : ∀ p, B.parent? = some p → p.decl.id < B.decl.id
  written : B.WrittenAs h (R B.decl.id).2

/-- The class and all of its superclasses are in the register. -/
def Class.Chained (R : Register) (h : Heap) (c : Class) : Prop :=
  ∀ B ∈ c.lineage, B.Entered R h

/-- Every class on the heap is in the register. -/
def Heap.Registered (h : Heap) (R : Register) : Prop :=
  ∀ c, h.Has (.cls c) → c.Chained R h

/-- Every class that the value is is in the register. -/
def Heap.Lists (R : Register) (h : Heap) (v : Value) : Prop := ∀ c, v = .cls c → c.Chained R h

section

variable {R : Register} {h h' : Heap} {B c : Class} {d : ClassDef} {v : Value}

theorem Heap.KeepsNumbers.refl (h : Heap) : h.KeepsNumbers h :=
  ⟨Nat.le_refl _, Nat.le_refl _, fun _ _ => rfl⟩

theorem Heap.KeepsNumbers.trans {h₁ h₂ h₃ : Heap} (h : h₁.KeepsNumbers h₂)
    (h' : h₂.KeepsNumbers h₃) : h₁.KeepsNumbers h₃ where
  classes := Nat.le_trans h.classes h'.classes
  closures := Nat.le_trans h.closures h'.closures
  closure i hi := by rw [h'.closure i (Nat.lt_of_lt_of_le hi h.closures), h.closure i hi]

theorem Heap.keepsNumbers_of_same (hClasses : h'.classes = h.classes)
    (hClosures : h'.closures = h.closures) : h.KeepsNumbers h' := by
  refine ⟨Nat.le_of_eq hClasses.symm, Nat.le_of_eq (congrArg Array.size hClosures.symm),
    fun i _ => ?_⟩
  rw [Heap.closure, Heap.closure, hClosures]

theorem Heap.keepsNumbers_of_extends (hExtends : h.Extends h') (hClasses : h.classes ≤ h'.classes) :
    h.KeepsNumbers h' :=
  ⟨hClasses, hExtends.closures, hExtends.closure⟩

theorem Class.WrittenAs.mono (hKeeps : h.KeepsNumbers h') (hWritten : B.WrittenAs h d) :
    B.WrittenAs h' d := by
  obtain ⟨hName, hParent, n, hMethods, hFuncs⟩ := hWritten
  refine ⟨hName, hParent, n, hMethods, fun j f hf => ?_⟩
  obtain ⟨hSize, hDefinition⟩ := hFuncs j f hf
  exact ⟨Nat.lt_of_lt_of_le hSize hKeeps.closures, by rw [hKeeps.closure _ hSize, hDefinition]⟩

theorem Class.Entered.mono (hKeeps : h.KeepsNumbers h') (hEntered : B.Entered R h) :
    B.Entered R h' :=
  ⟨hEntered.registered, Nat.lt_of_lt_of_le hEntered.known hKeeps.classes, hEntered.above,
    hEntered.written.mono hKeeps⟩

theorem Class.Chained.mono (hKeeps : h.KeepsNumbers h') (hChained : c.Chained R h) :
    c.Chained R h' :=
  fun B hB => (hChained B hB).mono hKeeps

theorem Heap.Lists.mono (hKeeps : h.KeepsNumbers h') (hv : h.Lists R v) : h'.Lists R v :=
  fun c hc => (hv c hc).mono hKeeps

theorem Heap.lists_of_ne (hv : ∀ c, v ≠ .cls c) : h.Lists R v := fun c hc => absurd hc (hv c)

theorem Heap.lists_of_isPlain (hv : v.IsPlain) : h.Lists R v := by
  rintro c rfl
  cases hv

/-- A heap stays registered if the classes that are new on it are in the register. -/
theorem Heap.Registered.grow (hRegistered : h.Registered R) (hKeeps : h.KeepsNumbers h')
    (hNew : ∀ v, h'.Has v → h.Has v ∨ h'.Lists R v) : h'.Registered R := by
  intro c hHas
  rcases hNew _ hHas with hOld | hListed
  · exact (hRegistered c hOld).mono hKeeps
  · exact hListed c rfl

theorem Heap.Registered.lists (hRegistered : h.Registered R) (hHas : h.Has v) : h.Lists R v := by
  rintro c rfl
  exact hRegistered c hHas

/-- The numbers go down along a chain. -/
theorem Class.Chained.pairwise (hChained : c.Chained R h) :
    (c.lineage.map (·.decl.id)).Pairwise (· > ·) := by
  -- every class further up has a smaller number than the one at hand
  have hBelow : ∀ (c : Class) (h : Heap), c.Chained R h →
      ∀ B ∈ c.lineage, B.decl.id ≤ c.decl.id := by
    intro c h hChained
    induction c with
    | base d =>
      intro B hB
      obtain rfl := List.mem_singleton.mp hB
      exact Nat.le_refl _
    | derived d p ih =>
      intro B hB
      rcases List.mem_cons.mp hB with rfl | hB
      · exact Nat.le_refl _
      · have hParent := (hChained _ List.mem_cons_self).above p rfl
        have hUp := ih (fun B hB => hChained B (List.mem_cons_of_mem _ hB)) B hB
        exact Nat.le_trans hUp (Nat.le_of_lt hParent)
  induction c with
  | base d => exact List.pairwise_singleton _ _
  | derived d p ih =>
    have hUp : p.Chained R h := fun B hB => hChained B (List.mem_cons_of_mem _ hB)
    refine List.pairwise_cons.mpr ⟨?_, ih hUp⟩
    intro id hId
    obtain ⟨B, hB, rfl⟩ := List.mem_map.mp hId
    exact Nat.lt_of_le_of_lt (hBelow p h hUp B hB) ((hChained _ List.mem_cons_self).above p rfl)

end

/-! ## The discipline -/

/-- Every class is in the register. -/
def chained (R : Register) : Discipline where
  Inv m := m.heap.Registered R
  Grows m m' := m.heap.KeepsNumbers m'.heap
  Val := Heap.Lists R
  Site := Unit
  At _ _ _ := True
  Code _ _ _ := True

section

variable {R : Register} {m m' : Machine} {v : Value}

/-- A change that puts values on the heap that are in the register. -/
theorem chained_next (hInv : m.heap.Registered R) (hKeeps : m.heap.KeepsNumbers m'.heap)
    (hNew : ∀ v, m'.heap.Has v → m.heap.Has v ∨ m.heap.Lists R v) : (chained R).Next m m' :=
  ⟨hInv.grow hKeeps fun v hv => (hNew v hv).imp_right (Heap.Lists.mono hKeeps), hKeeps⟩

theorem chained_bind (hInv : m.heap.Registered R) (hv : m.heap.Lists R v) (s : ScopeId)
    (name : String) (constant : Bool) :
    (chained R).Next m (m.withHeap (m.heap.bind s name ⟨v, constant⟩)) := by
  refine chained_next hInv (Heap.keepsNumbers_of_same rfl rfl) fun w hw => ?_
  refine (Heap.has_of_bind hw).imp_right ?_
  rintro rfl
  exact hv

theorem keepsNumbers_enterCall {closure : Closure} {self : Option ObjectId} {args : List Value}
    {env : Env} (h : Eval.enterCall closure self args m = .ok env m') :
    m.heap.KeepsNumbers m'.heap := by
  cases self with
  | none =>
    rw [Eval.enterCall_func] at h
    cases h
    exact Heap.keepsNumbers_of_same rfl rfl
  | some o =>
    rw [Eval.enterCall_method] at h
    cases h
    exact Heap.keepsNumbers_of_same rfl rfl

theorem chained_steady {cfg : Settings} (hHost : cfg.host.Honest) : (chained R).Steady cfg where
  refl m := .refl m.heap
  trans h₁ h₂ := Heap.KeepsNumbers.trans h₁ h₂
  val_grows := Heap.Lists.mono
  at_grows _ _ := trivial
  code_part _ _ := trivial
  plain := Heap.lists_of_isPlain
  lookup hInv _ hGet := Heap.Registered.lists hInv (Heap.has_of_get hGet)
  superMethod _ _ _ _ _ _ := Heap.lists_of_ne nofun
  element hInv _ hMem := Heap.Registered.lists hInv (.element hMem)
  member hInv _ hMember := by
    rcases Heap.has_of_member? hMember with hHas | ⟨f, rfl⟩
    · exact Heap.Registered.lists hInv hHas
    · exact Heap.lists_of_ne nofun
  host := Discipline.trusts_of_honest hHost (fun _ _ => Heap.lists_of_isPlain) fun _ _ => Heap.lists_of_ne nofun
  foreign _ _ := trivial
  console _ _ := trivial
  quiet {m m'} hInv hHeap _ _ := by
    refine chained_next hInv ?_ fun v hv => .inl ?_
    · rw [hHeap]
      exact .refl _
    · rw [hHeap] at hv
      exact hv
  countNan {m n} hInv := chained_next hInv (Heap.keepsNumbers_of_same rfl rfl) fun v hv =>
    .inl (Heap.has_of_same hv rfl rfl rfl)
  newArray hInv hValues :=
    ⟨chained_next hInv (Heap.keepsNumbers_of_same rfl rfl) fun v hv =>
      (Heap.has_of_newArray hv).imp_right fun hMem => hValues v hMem, Heap.lists_of_ne nofun⟩
  newObject hInv hClass := by
    refine ⟨chained_next hInv (Heap.keepsNumbers_of_same rfl rfl) fun v hv => ?_,
      Heap.lists_of_ne nofun, fun _ _ => Heap.lists_of_ne nofun⟩
    refine (Heap.has_of_newObject hv).imp_right ?_
    rintro rfl
    exact hClass
  setField hInv _ hValue := by
    refine chained_next hInv (Heap.keepsNumbers_of_same rfl rfl) fun v hv => ?_
    refine (Heap.has_of_setField hv).imp_right ?_
    rintro rfl
    exact hValue
  setElement hInv _ hValue := by
    refine chained_next hInv (Heap.keepsNumbers_of_same rfl rfl) fun v hv => ?_
    refine (Heap.has_of_setElement hv).imp_right ?_
    rintro rfl
    exact hValue
  newScope hInv _ hNames := by
    refine ⟨chained_next hInv (Heap.keepsNumbers_of_same rfl rfl) fun v hv => ?_, trivial⟩
    refine (Heap.has_of_newScope hv).imp_right ?_
    rintro ⟨e, he, rfl⟩
    exact (hNames e he).2
  declare hInv _ _ hValue _ := chained_bind hInv hValue _ _ _
  assign hInv _ _ hValue _ := chained_bind hInv hValue _ _ _
  newFunc {m _ _ env f} hInv _ _ :=
    ⟨chained_next hInv (Heap.keepsNumbers_of_extends (Heap.extends_newClosure _ _) (Nat.le_refl _))
      fun v hv => .inl (Heap.has_of_same hv rfl rfl rfl), Heap.lists_of_ne nofun⟩
  call hInv _ hArgs _ _ hEnter := by
    have hKeeps := keepsNumbers_enterCall hEnter
    have hEntered := chained_next hInv hKeeps fun v hv => by
      rcases Heap.has_of_enterCall hEnter hv with hOld | hArg | ⟨o, rfl⟩
      · exact .inl hOld
      · exact .inr (hArgs v hArg)
      · exact .inr (Heap.lists_of_ne nofun)
    exact ⟨hEntered.1, ⟨(), .top, trivial, fun _ _ => trivial⟩, fun m₂ hm₂ =>
      ⟨hm₂.1, Heap.KeepsNumbers.trans hKeeps hm₂.2⟩⟩

/-! ### Making classes -/

/-- The methods of a class are functions that its definition adds. -/
theorem writtenAs_classOf (h : Heap) (env : Env) {c : ClassDef} {parent : Option Class}
    (hSome : parent.isSome = c.superclass.isSome) :
    (h.classOf c parent).WrittenAs (h.withClass env c parent) c := by
  refine ⟨?_, ?_, h.closures.size, ?_, fun j f hf => ?_⟩
  · rw [Class.name, decl_classOf]
  · rw [parent?_classOf, hSome]
  · rw [decl_classOf]
  · have hj : j < c.methods.length := (List.getElem?_eq_some_iff.mp hf).1
    constructor
    · rw [Heap.withClass, size_append, List.length_map]
      exact Nat.add_lt_add_left hj _
    · have hClosure : (h.withClass env c parent).closure (h.closures.size + j) =
          (c.methods.map (·.toMethod (h.methodEnv env parent))).getD j default :=
        getD_append_add j
      rw [hClosure, List.getD_eq_getElem?_getD, List.getElem?_map, hf]
      rfl

/-- A class that is entered as it is made is in the register with all of its superclasses. -/
theorem chained_classOf {h : Heap} (env : Env) {c : ClassDef} {parent : Option Class}
    (hSome : parent.isSome = c.superclass.isSome) (hParent : ∀ p ∈ parent, p.Chained R h)
    (hRegister : R h.classes = (h.classOf c parent, c)) :
    (h.classOf c parent).Chained R (h.withClass env c parent) := by
  have hKeeps : h.KeepsNumbers (h.withClass env c parent) :=
    Heap.keepsNumbers_of_extends (Heap.extends_withClass h env c parent) (Nat.le_succ _)
  have hNumber : (h.classOf c parent).decl.id = h.classes := by rw [decl_classOf]
  have hSelf : (h.classOf c parent).Entered R (h.withClass env c parent) := by
    refine ⟨?_, ?_, fun p hp => ?_, ?_⟩
    · rw [hNumber, hRegister]
    · rw [hNumber]
      exact Nat.lt_succ_self _
    · rw [parent?_classOf] at hp
      rw [hNumber]
      exact (hParent p hp p (Class.self_mem_lineage p)).known
    · rw [hNumber, hRegister]
      exact writtenAs_classOf h env hSome
  cases parent with
  | none =>
    intro B hB
    obtain rfl := List.mem_singleton.mp hB
    exact hSelf
  | some p =>
    intro B hB
    rcases List.mem_cons.mp hB with rfl | hB
    · exact hSelf
    · exact (hParent p rfl B hB).mono hKeeps

/-- A definition is admitted if the class that it makes is in the register. -/
theorem chained_admits {env : Env} {c : ClassDef} {k : Machine}
    (hRegister : ∀ parent, Eval.superclass env c k = .ok parent k →
      R k.heap.classes = (k.heap.classOf c parent, c)) :
    (chained R).Admits env c k := by
  intro _ _ hInv _ _
  rcases Eval.superclass_cases env c k with ⟨s, hError⟩ | ⟨parent, hOk, hSome, hParent⟩
  · have hRun : Eval.defineClass env c k = .error s k := by
      change (Eval.superclass env c >>= fun parent => _) k = _
      rw [Eval.bind_eq, hError]
    rw [Eval.final_of_error hRun]
    exact ⟨hInv, .refl _⟩
  have hUp : ∀ p ∈ parent, p.Chained R k.heap := by
    intro p hp
    obtain ⟨id, -, hGet⟩ := hParent p hp
    exact hInv p (Heap.has_of_get hGet)
  have hMade : (chained R).Next k (k.withHeap (k.heap.withClass env c parent)) := by
    refine chained_next hInv
      (Heap.keepsNumbers_of_extends (Heap.extends_withClass _ _ _ _) (Nat.le_succ _)) fun v hv => ?_
    refine (Heap.has_of_withClass hv).imp_right ?_
    rintro ⟨p, hp, rfl⟩ q ⟨⟩
    exact hUp p hp
  have hFinal : (Eval.defineClass env c).final k =
      (Eval.declare env c.id.name (.cls (k.heap.classOf c parent)) false).final
        (k.withHeap (k.heap.withClass env c parent)) := by
    rw [Eval.final, Eval.final, Eval.defineClass_eq hOk]
  rw [hFinal]
  rcases Eval.final_declare env c.id.name (.cls (k.heap.classOf c parent)) false
    (k.withHeap (k.heap.withClass env c parent)) with hSame | ⟨-, hBound⟩
  · rw [hSame]
    exact hMade
  · rw [hBound]
    have hClass : (k.heap.withClass env c parent).Lists R (.cls (k.heap.classOf c parent)) := by
      rintro _ ⟨⟩
      exact chained_classOf env hSome hUp (hRegister parent hOk)
    have hDeclared := chained_bind hMade.1 hClass env.current c.id.name false
    exact ⟨hDeclared.1, Heap.KeepsNumbers.trans hMade.2 hDeclared.2⟩

end

/-! ## Sessions -/

namespace Session

variable {s : Session} {steps : List Step}

/-- The register of a session: what was in it before, and whatever class is made with a number. -/
noncomputable def register (s : Session) (steps : List Step) (before : Register) : Register :=
  fun n =>
    open Classical in
      if h : ∃ entry : Class × ClassDef, ∃ env k parent, s.Defines steps env entry.2 k ∧
          Eval.superclass env entry.2 k = .ok parent k ∧ k.heap.classes = n ∧
          k.heap.classOf entry.2 parent = entry.1
      then h.choose else before n

/-- Every class that is made is entered. -/
theorem register_of_defines (before : Register) {env : Env} {c : ClassDef} {k : Machine}
    {parent : Option Class} (h : s.Defines steps env c k)
    (found : Eval.superclass env c k = .ok parent k) :
    s.register steps before k.heap.classes = (k.heap.classOf c parent, c) := by
  have hExists : ∃ entry : Class × ClassDef, ∃ env k' parent, s.Defines steps env entry.2 k' ∧
      Eval.superclass env entry.2 k' = .ok parent k' ∧ k'.heap.classes = k.heap.classes ∧
      k'.heap.classOf entry.2 parent = entry.1 :=
    ⟨(k.heap.classOf c parent, c), env, k, parent, h, found, rfl, rfl⟩
  rw [register, dif_pos hExists]
  obtain ⟨env', k', parent', h', found', hSame, hClass⟩ := hExists.choose_spec
  obtain ⟨rfl, hDef, rfl⟩ := h'.unique found' h found hSame
  rw [hDef] at found' hClass
  cases found.symm.trans found'
  exact Prod.ext hClass.symm hDef

/-- What was in the register before stays there. -/
theorem register_of_lt (steps : List Step) (before : Register) {n : Nat}
    (hn : n < s.machine.heap.classes) : s.register steps before n = before n := by
  rw [register, dif_neg]
  rintro ⟨entry, env, k, parent, h, found, rfl, -⟩
  exact absurd hn (Nat.not_lt.mpr (h.counts found))

/-- A session has one register for as long as it lasts, in which every class is that ever stands
on its heap. -/
theorem registered_register {before : Register} (hHost : s.settings.host.Honest)
    (hBefore : s.machine.heap.Registered before) {x : Machine} (hMeets : s.Meets steps x) :
    x.heap.Registered (s.register steps before) := by
  have hStart : s.machine.heap.Registered (s.register steps before) := by
    intro c hHas B hB
    obtain ⟨hRegistered, hKnown, hAbove, hWritten⟩ := hBefore c hHas B hB
    rw [← register_of_lt steps before hKnown] at hRegistered hWritten
    exact ⟨hRegistered, hKnown, hAbove, hWritten⟩
  exact (chained_steady hHost).inv_of_meets (σ := ()) (fun _ _ => trivial) hStart trivial
    (fun env c k h => chained_admits fun parent found => register_of_defines before h found) hMeets

/-- The register without the entries of the numbers that were not given away yet. -/
def cutAt (s : Session) (before : Register) : Register := fun n =>
  if n < s.machine.heap.classes then before n
  else (.base ⟨n + 1, "", []⟩, ⟨⟨"", none⟩, none, [], none⟩)

theorem cutAt_of_lt (before : Register) {n : Nat} (hn : n < s.machine.heap.classes) :
    s.cutAt before n = before n :=
  if_pos hn

theorem registered_cutAt {before : Register} (hBefore : s.machine.heap.Registered before) :
    s.machine.heap.Registered (s.cutAt before) := by
  intro c hHas B hB
  obtain ⟨hRegistered, hKnown, hAbove, hWritten⟩ := hBefore c hHas B hB
  rw [← cutAt_of_lt before hKnown] at hRegistered hWritten
  exact ⟨hRegistered, hKnown, hAbove, hWritten⟩

/-- A class with a number of its own that is in the register was there before, or was made by a
definition that the session comes to execute. -/
theorem made_of_registered (before : Register) {B : Class}
    (hRegistered : (s.register steps (s.cutAt before) B.decl.id).1 = B) :
    B.decl.id < s.machine.heap.classes ∨
      ∃ env k, s.Defines steps env (s.register steps (s.cutAt before) B.decl.id).2 k ∧
        k.heap.classes = B.decl.id ∧
        Eval.superclass env (s.register steps (s.cutAt before) B.decl.id).2 k =
          .ok B.parent? k := by
  rcases Nat.lt_or_ge B.decl.id s.machine.heap.classes with hLt | hGe
  · exact .inl hLt
  by_cases hMade : ∃ entry : Class × ClassDef, ∃ env k parent, s.Defines steps env entry.2 k ∧
      Eval.superclass env entry.2 k = .ok parent k ∧ k.heap.classes = B.decl.id ∧
      k.heap.classOf entry.2 parent = entry.1
  · obtain ⟨⟨B', d⟩, env, k, parent, hDefines, hFound, hNumber, hClass⟩ := hMade
    have hEntry := register_of_defines (s.cutAt before) hDefines hFound
    rw [hNumber] at hEntry
    have hParent : parent = B.parent? := by
      rw [← hRegistered, hEntry, parent?_classOf]
    rw [hEntry]
    exact .inr ⟨env, k, hDefines, hNumber, hParent ▸ hFound⟩
  · -- nothing made the number, and what is written there in its stead has another one
    rw [register, dif_neg hMade, cutAt, if_neg (Nat.not_lt.mpr hGe)] at hRegistered
    have hNumber := congrArg (fun c : Class => c.decl.id) hRegistered
    exact absurd hNumber (Nat.succ_ne_self _)

/-- What a definition declares is the class that the register has under the number at hand. -/
theorem entered_of_defines (before : Register) {env : Env} {d : ClassDef} {k : Machine}
    {parent : Option Class} (h : s.Defines steps env d k)
    (found : Eval.superclass env d k = .ok parent k) :
    ∃ B m, s.register steps before k.heap.classes = (B, d) ∧ B.decl.id = k.heap.classes ∧
      B.name = d.id.name ∧ B.parent? = parent ∧
      Eval.defineClass env d k = Eval.declare env d.id.name (.cls B) false m :=
  ⟨_, _, register_of_defines before h found, by rw [decl_classOf], by rw [Class.name, decl_classOf],
    parent?_classOf _ _ _, Eval.defineClass_eq found⟩

end Session

/-! ## Instances -/

section

variable {cfg : Settings} {fuel depth : Nat} {c : Class} {f : FuncId} {args : List Value}
  {m m' : Machine} {v : Value}

/-- A call of a class whose instances are set up by a method: it gives the new instance, whatever
the method gives back, and leaves as the method does. -/
theorem run_applyClass_of_some (hInit : c.findMethod? Eval.initializerName = some f) :
    run cfg (fuel + 1) (.apply depth (.cls c) args) m =
      (run cfg fuel (.applyFunc depth f (some m.heap.objects.size) args) >>= fun _ =>
        pure (.object m.heap.objects.size)) (m.withHeap (m.heap.newObject ⟨c, []⟩).2) := by
  change Step.apply cfg (run cfg fuel) depth (.cls c) args m = _
  simp only [Step.apply, hInit]
  rfl

/-- A call of a class that sets nothing up gives the new instance if there are no arguments. -/
theorem run_applyClass_of_none (hInit : c.findMethod? Eval.initializerName = none) :
    run cfg (fuel + 1) (.apply depth (.cls c) args) m =
      if args.length = 0 then
        .ok (.object m.heap.objects.size) (m.withHeap (m.heap.newObject ⟨c, []⟩).2)
      else .error (.fault ⟨.arity c.name 0 args.length, none⟩)
        (m.withHeap (m.heap.newObject ⟨c, []⟩).2) := by
  change Step.apply cfg (run cfg fuel) depth (.cls c) args m = _
  simp only [Step.apply, hInit]
  split <;> rfl

/-- What a call of a class gives is a new instance of it. -/
theorem instance_of_run_applyClass
    (hRun : run cfg fuel (.apply depth (.cls c) args) m = .ok v m') :
    v = .object m.heap.objects.size ∧ m.heap.objects.size < m'.heap.objects.size ∧
      (m'.heap.object m.heap.objects.size).cls = c := by
  cases fuel with
  | zero => cases hRun
  | succ fuel =>
    have hSize : m.heap.objects.size < (m.heap.newObject ⟨c, []⟩).2.objects.size := by
      simp [Heap.newObject]
    have hClass : ((m.heap.newObject ⟨c, []⟩).2.object m.heap.objects.size).cls = c := by
      rw [Heap.object_newObject, if_pos rfl]
    cases hInit : c.findMethod? Eval.initializerName with
    | none =>
      rw [run_applyClass_of_none hInit] at hRun
      split at hRun <;> cases hRun
      exact ⟨rfl, hSize, hClass⟩
    | some f =>
      rw [run_applyClass_of_some hInit, Eval.bind_eq] at hRun
      split at hRun
      · next w k hCall =>
        cases hRun
        -- the instance is there still, and of its class, once it has been set up
        have hKeeps := (classesKept_lawful cfg).grows_run fuel
          (.applyFunc depth f (some m.heap.objects.size) args)
          (m.withHeap (m.heap.newObject ⟨c, []⟩).2)
        rw [Eval.final_of_ok hCall] at hKeeps
        exact ⟨rfl, Nat.lt_of_lt_of_le hSize hKeeps.size, (hKeeps.cls _ hSize).trans hClass⟩
      · cases hRun

end

/-! ## Well-foundedness -/

/-- The classes of a session, over its history in whatever steps. There is one register of them,
which goes on from the register of the classes that the session starts with: a number stands for
one class, with one superclass, for good. Every class definition that the session comes to execute
is in it under the number at hand, with the class that it declares under its name and the
superclass that it finds; and every class that the session did not start with is one of these.
Along the superclasses of a class the numbers go down. Of each class, the method of a name is the
last of this name in its definition; a method is found in the first class of the chain that has
one, and none is found if and only if no class has one. What a call of a class gives is a new
instance of just this class; it gives this instance if the method that sets it up gives back
anything, leaves as that method does, and if there is none it is a fault to have arguments. -/
theorem classes_wellFounded (s : Session) (steps : List Session.Step) (before : Register)
    (hHost : s.settings.host.Honest) (hBefore : s.machine.heap.Registered before) :
    (∃ R : Register, (∀ n < s.machine.heap.classes, R n = before n) ∧
      (∀ env d k parent, s.Defines steps env d k → Eval.superclass env d k = .ok parent k →
        ∃ B m, R k.heap.classes = (B, d) ∧ B.decl.id = k.heap.classes ∧ B.name = d.id.name ∧
          B.parent? = parent ∧
          Eval.defineClass env d k = Eval.declare env d.id.name (.cls B) false m) ∧
      ∀ x, s.Meets steps x → ∀ c, x.heap.Has (.cls c) →
        (c.lineage.map (·.decl.id)).Pairwise (· > ·) ∧
        ∀ B ∈ c.lineage, (R B.decl.id).1 = B ∧ B.decl.id < x.heap.classes ∧
          (B.decl.id < s.machine.heap.classes ∨
            ∃ env k, s.Defines steps env (R B.decl.id).2 k ∧ k.heap.classes = B.decl.id ∧
              Eval.superclass env (R B.decl.id).2 k = .ok B.parent? k) ∧
          (∀ p, B.parent? = some p → p.decl.id < B.decl.id) ∧
          ∀ name, (B.decl.methods.lookup name).map (fun f => (x.heap.closure f).definition) =
            (R B.decl.id).2.methods.reverse.find? (·.id.name = name)) ∧
    (∀ (c : Class) name, c.findMethod? name = c.lineage.findSome? (·.decl.methods.lookup name) ∧
      (c.findMethod? name = none ↔ ∀ B ∈ c.lineage, B.decl.methods.lookup name = none)) ∧
    (∀ fuel depth c args m v m', run s.settings fuel (.apply depth (.cls c) args) m = .ok v m' →
      v = .object m.heap.objects.size ∧ m.heap.objects.size < m'.heap.objects.size ∧
        (m'.heap.object m.heap.objects.size).cls = c) ∧
    (∀ fuel depth (c : Class) f args m, c.findMethod? Eval.initializerName = some f →
      run s.settings (fuel + 1) (.apply depth (.cls c) args) m =
        (run s.settings fuel (.applyFunc depth f (some m.heap.objects.size) args) >>= fun _ =>
          pure (.object m.heap.objects.size)) (m.withHeap (m.heap.newObject ⟨c, []⟩).2)) ∧
    ∀ fuel depth (c : Class) args m, c.findMethod? Eval.initializerName = none →
      run s.settings (fuel + 1) (.apply depth (.cls c) args) m =
        if args.length = 0 then
          .ok (.object m.heap.objects.size) (m.withHeap (m.heap.newObject ⟨c, []⟩).2)
        else .error (.fault ⟨.arity c.name 0 args.length, none⟩)
          (m.withHeap (m.heap.newObject ⟨c, []⟩).2) := by
  refine ⟨?chain, fun c name => ⟨Class.findMethod?_eq_findSome? name c, ?_⟩,
    fun fuel depth c args m v m' hRun => instance_of_run_applyClass hRun,
    fun fuel depth c f args m hInit => run_applyClass_of_some hInit,
    fun fuel depth c args m hInit => run_applyClass_of_none hInit⟩
  case chain =>
    refine ⟨s.register steps (s.cutAt before), fun n hn => ?_,
      fun env d k parent hDefines hFound => Session.entered_of_defines _ hDefines hFound,
      fun x hMeets c hHas => ?_⟩
    · rw [Session.register_of_lt steps _ hn, Session.cutAt_of_lt before hn]
    have hRegistered := Session.registered_register hHost (Session.registered_cutAt hBefore) hMeets
    have hChained := hRegistered c hHas
    refine ⟨hChained.pairwise, fun B hB => ?_⟩
    have hEntered := hChained B hB
    exact ⟨hEntered.registered, hEntered.known,
      Session.made_of_registered before hEntered.registered, hEntered.above,
      hEntered.written.lookup⟩
  · rw [Class.findMethod?_eq_findSome?, List.findSome?_eq_none_iff]

theorem not_has_cls_create (opts : Session.Options) (natives : List Native) (c : Class) :
    ¬(Session.create opts .empty natives).machine.heap.Has (.cls c) := by
  intro hHas
  rcases Heap.has_of_newScope (h := .empty) hHas with hEmpty | ⟨e, he, hValue⟩
  · exact Heap.not_has_empty _ hEmpty
  · obtain ⟨f, -, rfl⟩ := List.mem_map.mp (Table.mem_of_mem_ofList he)
    cases hValue

/-- A session in which the name `A` stands for a subclass of the class that it stood for before.
The method `m` comes from that one. -/
def withSubclass : Session :=
  let method : FuncDef := ⟨⟨"m", none⟩, [], ⟨[], none⟩, none⟩
  let derived : Class := .derived ⟨1, "A", []⟩ (.base ⟨0, "A", [("m", 0)]⟩)
  { Session.standard with
    machine := Session.standard.machine.withHeap
      { Session.standard.machine.heap.bind 0 "A" ⟨.cls derived, false⟩ with
        closures := #[⟨method, ⟨0, []⟩, false⟩]
        classes := 2 } }

/-- The two classes of the name. -/
def withSubclass.register : Register := fun n =>
  let method : FuncDef := ⟨⟨"m", none⟩, [], ⟨[], none⟩, none⟩
  if n = 0 then (.base ⟨0, "A", [("m", 0)]⟩, ⟨⟨"A", none⟩, none, [method], none⟩)
  else (.derived ⟨1, "A", []⟩ (.base ⟨0, "A", [("m", 0)]⟩),
    ⟨⟨"A", none⟩, some ⟨"A", none⟩, [], none⟩)

theorem registered_withSubclass :
    withSubclass.machine.heap.Registered withSubclass.register := by
  intro c hHas
  have hBound : (Session.standard.machine.heap.bind 0 "A"
      ⟨.cls (.derived ⟨1, "A", []⟩ (.base ⟨0, "A", [("m", 0)]⟩)), false⟩).Has (.cls c) :=
    Heap.has_of_same hHas rfl rfl rfl
  rcases Heap.has_of_bind hBound with hOld | hNew
  · exact absurd hOld (not_has_cls_create _ _ c)
  cases hNew
  intro B hB
  rcases List.mem_cons.mp hB with rfl | hB
  · refine ⟨rfl, Nat.lt_succ_self 1, ?_, rfl, rfl, 0, rfl, nofun⟩
    rintro p ⟨⟩
    exact Nat.zero_lt_one
  · obtain rfl := List.mem_singleton.mp hB
    refine ⟨rfl, Nat.zero_lt_two, nofun, rfl, rfl, 0, rfl, fun j f hf => ?_⟩
    match j, hf with
    | 0, rfl => exact ⟨Nat.zero_lt_one, rfl⟩

/-- A definition that gives the name `A` to a subclass of the class that it stands for. -/
def withSubclass.again : ClassDef :=
  ⟨⟨"A", none⟩, some ⟨"A", none⟩, [⟨⟨"m", none⟩, [], ⟨[], none⟩, none⟩], none⟩

/-- The class has the number 1 and its superclass the number 0, the method is found in the
superclass, and a call of the class gives an instance of it. When the name is given to a subclass
once more, that one has the number 2 and the method, and the class as its superclass. -/
theorem classes_wellFounded_withSubclass :
    let A : Class := .derived ⟨1, "A", []⟩ (.base ⟨0, "A", [("m", 0)]⟩)
    (A.lineage.map (·.decl.id)).Pairwise (· > ·) ∧ A.findMethod? "m" = some 0 ∧
      (∀ fuel args v m', run withSubclass.settings fuel (.apply 0 (.cls A) args)
        withSubclass.machine = .ok v m' → v = .object 0 ∧ (m'.heap.object 0).cls = A) ∧
      ∃ B m, B.decl.id = 2 ∧ B.parent? = some A ∧
        Eval.defineClass withSubclass.globals withSubclass.again withSubclass.machine =
          Eval.declare withSubclass.globals "A" (.cls B) false m := by
  intro A
  have hHost : withSubclass.settings.host.Honest := Session.Options.honest_standard
  obtain ⟨⟨R, -, hMade, hChain⟩, find, call, -⟩ :=
    classes_wellFounded withSubclass [.runProgram ⟨[.cls withSubclass.again], none⟩ none]
      withSubclass.register hHost registered_withSubclass
  have hHas : withSubclass.machine.heap.Has (.cls A) :=
    .name (i := 0) (e := ("A", ⟨.cls A, false⟩)) (Table.mem_of_lookup rfl)
  have hDefines : withSubclass.Defines [.runProgram ⟨[.cls withSubclass.again], none⟩ none]
      withSubclass.globals withSubclass.again withSubclass.machine :=
    .inside (.program .runProgram (.inside rfl (.here rfl)))
  obtain ⟨B, m, -, hNumber, -, hParent, hDeclares⟩ := hMade _ _ _ (some A) hDefines rfl
  refine ⟨(hChain _ .here A hHas).1, ((find A "m").1).trans rfl, fun fuel args v m' hRun => ?_,
    B, m, hNumber, hParent, hDeclares⟩
  obtain ⟨hValue, -, hClass⟩ := call _ _ _ _ _ _ _ hRun
  exact ⟨hValue, hClass⟩

end Tern
