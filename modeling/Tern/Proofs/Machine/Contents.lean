import Tern.Proofs.Machine.Receiver

/-!
# What stands on the heap

Values stand on the heap as what names stand for, as elements of arrays and as fields of
instances; every instance also has its class there. A change of the heap puts no other values there
than those that it is given.

* `Heap.Has`: a value stands on the heap;
* `Heap.has_of_newScope` and the lemmas after it: what stands there after a change;
* `Heap.has_of_get`, `Heap.has_of_member?`: what is read stands on the heap.
-/

namespace Tern

namespace Heap

/-- The value stands on the heap. -/
inductive Has (h : Heap) : Value → Prop where
  | name {i : ScopeId} {e : String × Binding} (mem : e ∈ h.scope i) : Has h e.2.value
  | element {i : ArrayId} {v : Value} (mem : v ∈ (h.elements i).toList) : Has h v
  | cls {i : ObjectId} (lt : i < h.objects.size) : Has h (.cls (h.object i).cls)
  | field {i : ObjectId} {e : String × Value} (mem : e ∈ (h.object i).fields) : Has h e.2

variable {h h' : Heap} {v w : Value} {name : String}

theorem not_has_empty (v : Value) : ¬Heap.empty.Has v := by
  intro hHas
  cases hHas with
  | name mem => simp [scope, empty] at mem
  | element mem => simp [elements, empty] at mem
  | cls lt => simp [empty] at lt
  | field mem => simp [object, empty, default] at mem

/-! ## Changes -/

theorem has_of_same (hHas : h'.Has v) (hScopes : h'.scopes = h.scopes)
    (hArrays : h'.arrays = h.arrays) (hObjects : h'.objects = h.objects) : h.Has v := by
  obtain ⟨scopes, arrays, objects, closures, classes, nans⟩ := h
  cases hScopes
  cases hArrays
  cases hObjects
  cases hHas with
  | name mem => exact .name mem
  | element mem => exact .element mem
  | cls lt => exact .cls lt
  | field mem => exact .field mem

theorem has_of_newScope {names : Scope} (hHas : (h.newScope names).2.Has v) :
    h.Has v ∨ ∃ e ∈ names, e.2.value = v := by
  cases hHas with
  | @name i e mem =>
    rw [scope_newScope] at mem
    split at mem
    · exact .inr ⟨e, mem, rfl⟩
    · exact .inl (.name mem)
  | element mem => exact .inl (.element mem)
  | cls lt => exact .inl (.cls lt)
  | field mem => exact .inl (.field mem)

theorem has_of_bind {id : ScopeId} {b : Binding} (hHas : (h.bind id name b).Has v) :
    h.Has v ∨ v = b.value := by
  cases hHas with
  | @name i e mem =>
    rw [scope_bind] at mem
    split at mem
    · rcases Table.mem_of_mem_set mem with hOld | rfl
      · exact .inl (.name hOld)
      · exact .inr rfl
    · exact .inl (.name mem)
  | element mem => exact .inl (.element mem)
  | cls lt => exact .inl (.cls lt)
  | field mem => exact .inl (.field mem)

theorem has_of_newArray {es : Array Value} (hHas : (h.newArray es).2.Has v) :
    h.Has v ∨ v ∈ es.toList := by
  cases hHas with
  | name mem => exact .inl (.name mem)
  | element mem =>
    rw [elements_newArray] at mem
    split at mem
    · exact .inr mem
    · exact .inl (.element mem)
  | cls lt => exact .inl (.cls lt)
  | field mem => exact .inl (.field mem)

theorem has_of_setElement {id : ArrayId} {k : Nat} (hHas : (h.setElement id k w).Has v) :
    h.Has v ∨ v = w := by
  cases hHas with
  | name mem => exact .inl (.name mem)
  | element mem =>
    rw [elements_setElement] at mem
    split at mem
    · rw [Array.toList_setIfInBounds] at mem
      exact (List.mem_or_eq_of_mem_set mem).imp_left .element
    · exact .inl (.element mem)
  | cls lt => exact .inl (.cls lt)
  | field mem => exact .inl (.field mem)

theorem has_of_newObject {c : Class} (hHas : (h.newObject ⟨c, []⟩).2.Has v) :
    h.Has v ∨ v = .cls c := by
  cases hHas with
  | name mem => exact .inl (.name mem)
  | element mem => exact .inl (.element mem)
  | @cls i lt =>
    rw [object_newObject]
    split
    · exact .inr rfl
    · next hi =>
      have hSize : (h.newObject ⟨c, []⟩).2.objects.size = h.objects.size + 1 :=
        Array.size_push ..
      rw [hSize] at lt
      exact .inl (.cls (Nat.lt_of_le_of_ne (Nat.le_of_lt_succ lt) hi))
  | field mem =>
    rw [object_newObject] at mem
    split at mem
    · cases mem
    · exact .inl (.field mem)

theorem has_of_setField {id : ObjectId} (hHas : (h.setField id name w).Has v) :
    h.Has v ∨ v = w := by
  cases hHas with
  | name mem => exact .inl (.name mem)
  | element mem => exact .inl (.element mem)
  | cls lt =>
    rw [cls_setField]
    exact .inl (.cls (by simpa [setField] using lt))
  | field mem =>
    rw [object_setField] at mem
    split at mem
    · rcases Table.mem_of_mem_set mem with hOld | rfl
      · exact .inl (.field hOld)
      · exact .inr rfl
    · exact .inl (.field mem)

/-- A class definition puts the superclass on the heap. -/
theorem has_of_withClass {env : Env} {c : ClassDef} {parent : Option Class}
    (hHas : (h.withClass env c parent).Has v) : h.Has v ∨ ∃ p ∈ parent, v = .cls p := by
  cases parent with
  | none => exact .inl (has_of_same hHas rfl rfl rfl)
  | some p =>
    have hScope : (h.newScope [("super", ⟨.cls p, true⟩)]).2.Has v :=
      has_of_same hHas rfl rfl rfl
    refine (has_of_newScope hScope).imp_right ?_
    rintro ⟨e, he, rfl⟩
    obtain rfl := List.mem_singleton.mp he
    exact ⟨p, rfl, rfl⟩

/-! ## Reading -/

theorem has_of_get {env : Env} (hGet : h.get env name = .ok v) : h.Has v := by
  obtain ⟨s, b, hFound, rfl⟩ := exists_of_get hGet
  exact .name (e := (name, b)) (Table.mem_of_lookup hFound)

/-- A member is a field, which stands on the heap, or a method that is bound for the occasion. -/
theorem has_of_member? {id : ObjectId} (hMember : h.member? id name = some v) :
    h.Has v ∨ ∃ f, v = .bound f id := by
  rw [member?] at hMember
  split at hMember
  · next hField =>
    cases hMember
    exact .inl (.field (e := (name, v)) (Table.mem_of_lookup hField))
  · obtain ⟨f, -, rfl⟩ := Option.map_eq_some_iff.mp hMember
    exact .inr ⟨f, rfl⟩

end Heap

/-- The entry to a call puts the arguments and the instance on the heap. -/
theorem Heap.has_of_enterCall {m m' : Machine} {closure : Closure} {self : Option ObjectId}
    {args : List Value} {env : Env} {v : Value}
    (hEnter : Eval.enterCall closure self args m = .ok env m') (hHas : m'.heap.Has v) :
    m.heap.Has v ∨ v ∈ args ∨ ∃ o, v = .object o := by
  have hParams : ∀ {h : Heap}, (h.newScope (Eval.paramScope closure.definition args)).2.Has v →
      h.Has v ∨ v ∈ args := by
    intro h hHas
    refine (Heap.has_of_newScope hHas).imp_right ?_
    rintro ⟨e, he, rfl⟩
    exact (mem_paramScope he).2
  cases self with
  | none =>
    rw [Eval.enterCall_func] at hEnter
    cases hEnter
    exact (hParams hHas).imp_right .inl
  | some o =>
    rw [Eval.enterCall_method] at hEnter
    cases hEnter
    rcases hParams (h := (m.heap.newScope [("this", ⟨.object o, true⟩)]).2)
      (Heap.has_of_same hHas rfl rfl rfl) with hThis | hArg
    · refine (Heap.has_of_newScope hThis).imp_right fun ⟨e, he, hSame⟩ => .inr ⟨o, ?_⟩
      obtain rfl := List.mem_singleton.mp he
      exact hSame.symm
    · exact .inr (.inl hArg)

end Tern
