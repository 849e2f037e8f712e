import Tern.Proofs.Syntax.Placement
import Tern.Value.Heap

/-!
# How heaps grow

Cells are only ever added, so whatever a number stands for can be read again later. Functions
never change, instances keep their class, and a scope keeps what it says of the words `this` and
`super`, which no name is spelled like.

* `Heap.Extends`: one heap has grown out of another;
* `Heap.extends_newScope` and the lemmas after it: every change that programs make lets the heap
  grow.
-/

namespace Tern

/-- The words that stand for the instance and the superclass at hand. -/
def IsReserved (word : String) : Prop := word = "this" ∨ word = "super"

theorem not_isReserved_of_isName {word : String} (h : Node.isName word) : ¬IsReserved word := by
  unfold Node.isName at h
  rintro (rfl | rfl)
  · exact absurd h (by decide)
  · exact absurd h (by decide)

/-! ## Tables -/

namespace Table

variable {α : Type}

theorem mem_of_lookup {t : Table α} {key : String} {value : α} (h : t.lookup key = some value) :
    (key, value) ∈ t := by
  induction t with
  | nil => cases h
  | cons e rest ih =>
    obtain ⟨k, v⟩ := e
    by_cases hk : (key == k) = true
    · have hKey : key = k := by simpa using hk
      rw [List.lookup_cons, hk] at h
      cases h
      rw [hKey]
      exact List.mem_cons_self
    · have hk' : (key == k) = false := by simpa using hk
      rw [List.lookup_cons, hk'] at h
      exact List.mem_cons_of_mem _ (ih h)

theorem lookup_eq_none {t : Table α} {key : String} (h : ∀ e ∈ t, e.1 ≠ key) :
    t.lookup key = none := by
  cases hFound : t.lookup key with
  | none => rfl
  | some value => exact absurd rfl (h _ (mem_of_lookup hFound))

theorem mem_of_mem_set {t : Table α} {key : String} {value : α} {e : String × α}
    (h : e ∈ set key value t) : e ∈ t ∨ e = (key, value) := by
  induction t with
  | nil => exact .inr (List.mem_singleton.mp h)
  | cons e' rest ih =>
    obtain ⟨k, v⟩ := e'
    rw [set] at h
    split at h
    · next hk =>
      rcases List.mem_cons.mp h with rfl | hRest
      · exact .inr (by rw [hk])
      · exact .inl (List.mem_cons_of_mem _ hRest)
    · rcases List.mem_cons.mp h with rfl | hRest
      · exact .inl List.mem_cons_self
      · exact (ih hRest).imp (List.mem_cons_of_mem _) id

theorem mem_of_mem_ofList {entries : List (String × α)} {e : String × α}
    (h : e ∈ ofList entries) : e ∈ entries := by
  have hFold : ∀ (rest : List (String × α)) (done : Table α),
      e ∈ rest.foldl (fun t e => set e.1 e.2 t) done → e ∈ done ∨ e ∈ rest := by
    intro rest
    induction rest with
    | nil => exact fun done h => .inl h
    | cons first rest ih =>
      intro done h
      rcases ih _ h with hDone | hRest
      · rcases mem_of_mem_set hDone with hOld | rfl
        · exact .inl hOld
        · exact .inr List.mem_cons_self
      · exact .inr (List.mem_cons_of_mem _ hRest)
  rcases hFold entries [] h with hNil | hEntry
  · cases hNil
  · exact hEntry

end Table

/-! ## Reading cells -/

section

variable {α : Type}

theorem getD_push (cells : Array α) (a d : α) (i : Nat) :
    (cells.push a).getD i d = if i = cells.size then a else cells.getD i d := by
  simp only [Array.getD_eq_getD_getElem?, Array.getElem?_push]
  split <;> rfl

theorem getD_modify (cells : Array α) (f : α → α) (d : α) (i j : Nat) :
    (cells.modify j f).getD i d =
      if i = j ∧ i < cells.size then f (cells.getD i d) else cells.getD i d := by
  by_cases hi : i < cells.size
  · by_cases hj : j = i
    · simp [Array.getD, hi, Array.getElem_modify, hj]
    · simp [Array.getD, hi, Array.getElem_modify, hj, Ne.symm hj]
  · simp [Array.getD, hi]

theorem size_append (cells : Array α) (more : List α) :
    (cells ++ more).size = cells.size + more.length := by
  rw [← Array.length_toList, Array.toList_appendList, List.length_append, Array.length_toList]

theorem getD_append_of_lt {cells : Array α} {more : List α} {d : α} {i : Nat}
    (hi : i < cells.size) : (cells ++ more).getD i d = cells.getD i d := by
  have hToList : (cells ++ more).toList = cells.toList ++ more := Array.toList_appendList
  simp only [Array.getD_eq_getD_getElem?, ← Array.getElem?_toList, hToList]
  rw [List.getElem?_append_left (by simpa using hi)]

theorem getD_append_add {cells : Array α} {more : List α} {d : α} (j : Nat) :
    (cells ++ more).getD (cells.size + j) d = more.getD j d := by
  have hToList : (cells ++ more).toList = cells.toList ++ more := Array.toList_appendList
  simp only [Array.getD_eq_getD_getElem?, ← Array.getElem?_toList, hToList]
  rw [List.getElem?_append_right (by simp)]
  simp

end

namespace Heap

theorem scope_newScope (h : Heap) (s : Scope) (i : ScopeId) :
    (h.newScope s).2.scope i = if i = h.scopes.size then s else h.scope i :=
  getD_push h.scopes s [] i

theorem scope_bind (h : Heap) (id : ScopeId) (name : String) (b : Binding) (i : ScopeId) :
    (h.bind id name b).scope i =
      if i = id ∧ i < h.scopes.size then Table.set name b (h.scope i) else h.scope i :=
  getD_modify h.scopes (Table.set name b) [] i id

theorem elements_newArray (h : Heap) (es : Array Value) (i : ArrayId) :
    (h.newArray es).2.elements i = if i = h.arrays.size then es else h.elements i :=
  getD_push h.arrays es #[] i

theorem elements_setElement (h : Heap) (id : ArrayId) (k : Nat) (v : Value) (i : ArrayId) :
    (h.setElement id k v).elements i =
      if i = id ∧ i < h.arrays.size then (h.elements i).setIfInBounds k v else h.elements i :=
  getD_modify h.arrays (fun es => es.setIfInBounds k v) #[] i id

theorem object_newObject (h : Heap) (o : Object) (i : ObjectId) :
    (h.newObject o).2.object i = if i = h.objects.size then o else h.object i :=
  getD_push h.objects o default i

theorem object_setField (h : Heap) (id : ObjectId) (name : String) (v : Value) (i : ObjectId) :
    (h.setField id name v).object i =
      if i = id ∧ i < h.objects.size then
        { h.object i with fields := Table.set name v (h.object i).fields }
      else h.object i :=
  getD_modify h.objects (fun o => { o with fields := Table.set name v o.fields }) default i id

theorem cls_setField (h : Heap) (id : ObjectId) (name : String) (v : Value) (i : ObjectId) :
    ((h.setField id name v).object i).cls = (h.object i).cls := by
  rw [object_setField]
  split <;> rfl

theorem lookup_bind_ne (h : Heap) (id : ScopeId) {name other : String} (b : Binding)
    (hne : other ≠ name) (i : ScopeId) :
    ((h.bind id name b).scope i).lookup other = (h.scope i).lookup other := by
  rw [scope_bind]
  split
  · exact Table.lookup_set_ne hne b _
  · rfl

/-! ## Growth -/

/-- `h'` has grown out of `h`. -/
structure Extends (h h' : Heap) : Prop where
  scopes : h.scopes.size ≤ h'.scopes.size
  reserved : ∀ i < h.scopes.size, ∀ word, IsReserved word →
    (h'.scope i).lookup word = (h.scope i).lookup word
  objects : h.objects.size ≤ h'.objects.size
  cls : ∀ i < h.objects.size, (h'.object i).cls = (h.object i).cls
  closures : h.closures.size ≤ h'.closures.size
  closure : ∀ i < h.closures.size, h'.closure i = h.closure i

theorem Extends.refl (h : Heap) : h.Extends h :=
  ⟨Nat.le_refl _, fun _ _ _ _ => rfl, Nat.le_refl _, fun _ _ => rfl, Nat.le_refl _, fun _ _ => rfl⟩

theorem Extends.trans {h₁ h₂ h₃ : Heap} (h : h₁.Extends h₂) (h' : h₂.Extends h₃) :
    h₁.Extends h₃ where
  scopes := Nat.le_trans h.scopes h'.scopes
  reserved i hi word hWord := by
    rw [h'.reserved i (Nat.lt_of_lt_of_le hi h.scopes) word hWord, h.reserved i hi word hWord]
  objects := Nat.le_trans h.objects h'.objects
  cls i hi := by rw [h'.cls i (Nat.lt_of_lt_of_le hi h.objects), h.cls i hi]
  closures := Nat.le_trans h.closures h'.closures
  closure i hi := by
    rw [h'.closure i (Nat.lt_of_lt_of_le hi h.closures), h.closure i hi]

/-- A change that leaves scopes, instances and functions alone. -/
theorem extends_of_same {h h' : Heap} (hScopes : h'.scopes = h.scopes)
    (hObjects : h'.objects = h.objects) (hClosures : h'.closures = h.closures) :
    h.Extends h' := by
  refine ⟨Nat.le_of_eq (congrArg Array.size hScopes.symm), fun i _ word _ => ?_,
    Nat.le_of_eq (congrArg Array.size hObjects.symm), fun i _ => ?_,
    Nat.le_of_eq (congrArg Array.size hClosures.symm), fun i _ => ?_⟩
  · rw [scope, scope, hScopes]
  · rw [object, object, hObjects]
  · rw [closure, closure, hClosures]

/-- New scopes and functions after the ones that are there. -/
theorem extends_append {h h' : Heap} (scopes : List Scope) (closures : List Closure)
    (hScopes : h'.scopes = h.scopes ++ scopes) (hObjects : h'.objects = h.objects)
    (hClosures : h'.closures = h.closures ++ closures) : h.Extends h' := by
  refine ⟨?_, fun i hi word _ => ?_, Nat.le_of_eq (congrArg Array.size hObjects.symm),
    fun i _ => ?_, ?_, fun i hi => ?_⟩
  · rw [hScopes, size_append]
    exact Nat.le_add_right _ _
  · rw [scope, scope, hScopes, getD_append_of_lt hi]
  · rw [object, object, hObjects]
  · rw [hClosures, size_append]
    exact Nat.le_add_right _ _
  · rw [closure, closure, hClosures, getD_append_of_lt hi]

theorem extends_newScope (h : Heap) (s : Scope) : h.Extends (h.newScope s).2 :=
  extends_append [s] [] rfl rfl rfl

theorem extends_newClosure (h : Heap) (c : Closure) : h.Extends (h.newClosure c).2 :=
  extends_append [] [c] rfl rfl rfl

theorem extends_bind {h : Heap} {id : ScopeId} {name : String} {b : Binding}
    (hName : ¬IsReserved name) : h.Extends (h.bind id name b) := by
  refine ⟨by simp [bind], fun i _ word hWord => ?_, Nat.le_refl _, fun _ _ => rfl, Nat.le_refl _,
    fun _ _ => rfl⟩
  have hne : word ≠ name := by
    rintro rfl
    exact hName hWord
  exact lookup_bind_ne h id b hne i

theorem extends_newObject (h : Heap) (o : Object) : h.Extends (h.newObject o).2 := by
  refine ⟨Nat.le_refl _, fun _ _ _ _ => rfl, by simp [newObject], fun i hi => ?_, Nat.le_refl _,
    fun _ _ => rfl⟩
  rw [object_newObject, if_neg (Nat.ne_of_lt hi)]

theorem extends_setField (h : Heap) (id : ObjectId) (name : String) (v : Value) :
    h.Extends (h.setField id name v) :=
  ⟨Nat.le_refl _, fun _ _ _ _ => rfl, by simp [setField], fun i _ => cls_setField h id name v i,
    Nat.le_refl _, fun _ _ => rfl⟩

/-! ## Looking names up -/

/-- Scopes that do not have a name are passed over. -/
theorem find?_append_of_none (h : Heap) (name : String) {before after : List ScopeId}
    (hBefore : ∀ s ∈ before, (h.scope s).lookup name = none) :
    h.find? name (before ++ after) = h.find? name after := by
  induction before with
  | nil => rfl
  | cons s rest ih =>
    obtain ⟨hFirst, hRest⟩ := List.forall_mem_cons.mp hBefore
    rw [List.cons_append, find?, hFirst]
    exact ih hRest

theorem get_of_find? {h : Heap} {env : Env} {name : String} {before after : List ScopeId}
    {s : ScopeId} {b : Binding} (hScopes : env.scopes = before ++ s :: after)
    (hBefore : ∀ s ∈ before, (h.scope s).lookup name = none)
    (hFound : (h.scope s).lookup name = some b) : h.get env name = .ok b.value := by
  have hFind : h.lookup? env name = some (s, b) := by
    rw [lookup?, hScopes, find?_append_of_none h name hBefore, find?, hFound]
  rw [get, hFind]

/-- What a name stands for is written in one of the scopes. -/
theorem exists_of_find? {h : Heap} {name : String} {scopes : List ScopeId} {s : ScopeId}
    {b : Binding} (hFind : h.find? name scopes = some (s, b)) :
    (h.scope s).lookup name = some b := by
  induction scopes with
  | nil => cases hFind
  | cons s' rest ih =>
    rw [find?] at hFind
    split at hFind
    · next hFound =>
      cases hFind
      exact hFound
    · exact ih hFind

theorem exists_of_get {h : Heap} {env : Env} {name : String} {v : Value}
    (hGet : h.get env name = .ok v) :
    ∃ s b, (h.scope s).lookup name = some b ∧ b.value = v := by
  rw [get] at hGet
  cases hFind : h.lookup? env name with
  | none =>
    rw [hFind] at hGet
    cases hGet
  | some found =>
    rw [hFind] at hGet
    cases hGet
    exact ⟨found.1, found.2, exists_of_find? hFind, rfl⟩

end Heap

end Tern
