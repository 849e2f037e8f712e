import Tern.Proofs.Value.Growth

/-!
# Names in scopes

Which names a scope has, and how that may change. A name that a scope has it keeps, and a
constant keeps its value. Of the changes that programs make only three touch the names of scopes
that are there: a declaration, which adds at most its own name to the innermost scope and is
refused for a constant; an assignment, which adds no name and is refused for a constant as well;
and a new scope, which comes after all others.

* `Heap.Bound`: a scope has a name;
* `Heap.Keeps`: names stay, and constants keep their values;
* `Heap.SameNames`: a scope has the same names.
-/

namespace Tern.Heap

/-- The scope itself has the name. -/
def Bound (h : Heap) (i : ScopeId) (name : String) : Prop :=
  ((h.scope i).lookup name).isSome

/-- Every scope keeps its names, and its constants with their values. -/
structure Keeps (h h' : Heap) : Prop where
  bound : ∀ {i name}, h.Bound i name → h'.Bound i name
  constant : ∀ {i name b}, (h.scope i).lookup name = some b → b.constant = true →
    (h'.scope i).lookup name = some b

/-- A scope has the same names in both heaps. -/
def SameNames (i : ScopeId) (h h' : Heap) : Prop := ∀ name, h'.Bound i name ↔ h.Bound i name

variable {h h' h'' : Heap} {i s : ScopeId} {env : Env} {name x : String} {b : Binding}

theorem bound_of_lookup (hFound : (h.scope i).lookup name = some b) : h.Bound i name := by
  rw [Bound, hFound]
  rfl

/-! ## Scopes that stay -/

theorem scope_of_le (hi : h.scopes.size ≤ i) : h.scope i = [] := by
  simp [scope, Array.getD_eq_getD_getElem?, hi]

theorem not_bound_of_le (hi : h.scopes.size ≤ i) : ¬h.Bound i name := by
  simp [Bound, scope_of_le hi]

/-- Scopes that came to be later are behind those that are there. -/
theorem scope_append {more : List Scope} (hScopes : h'.scopes = h.scopes ++ more)
    (hi : i < h.scopes.size) : h'.scope i = h.scope i := by
  rw [scope, scope, hScopes, getD_append_of_lt hi]

theorem Keeps.refl (h : Heap) : h.Keeps h := ⟨id, fun hFound _ => hFound⟩

theorem Keeps.trans (hFirst : h.Keeps h') (hSecond : h'.Keeps h'') : h.Keeps h'' :=
  ⟨fun hBound => hSecond.bound (hFirst.bound hBound), fun hFound hConstant =>
    hSecond.constant (hFirst.constant hFound hConstant) hConstant⟩

theorem keeps_append (more : List Scope) (hScopes : h'.scopes = h.scopes ++ more) :
    h.Keeps h' := by
  have hThere : ∀ i name, h.Bound i name → h'.scope i = h.scope i := by
    intro i name hBound
    refine scope_append hScopes (Nat.lt_of_not_le fun hi => ?_)
    exact not_bound_of_le hi hBound
  refine ⟨fun {i name} hBound => ?_, fun {i name b} hFound _ => ?_⟩
  · rw [Bound, hThere i name hBound]
    exact hBound
  · rw [hThere i name (bound_of_lookup hFound)]
    exact hFound

theorem keeps_of_same (hScopes : h'.scopes = h.scopes) : h.Keeps h' :=
  keeps_append [] (by rw [hScopes, Array.appendList_nil])

theorem keeps_newScope (h : Heap) (names : Scope) : h.Keeps (h.newScope names).2 :=
  keeps_append [names] rfl

theorem sameNames_refl (i : ScopeId) (h : Heap) : h.SameNames i h := fun _ => Iff.rfl

theorem SameNames.trans (hFirst : SameNames i h h') (hSecond : SameNames i h' h'') :
    SameNames i h h'' :=
  fun name => (hSecond name).trans (hFirst name)

theorem sameNames_append (more : List Scope) (hi : i < h.scopes.size)
    (hScopes : h'.scopes = h.scopes ++ more) : SameNames i h h' := by
  intro name
  rw [Bound, scope_append hScopes hi]
  rfl

/-! ## Setting a name -/

/-- Setting a name of a scope that is there adds no other name. -/
theorem bound_bind :
    (h.bind s name b).Bound i x ↔ h.Bound i x ∨ i = s ∧ i < h.scopes.size ∧ x = name := by
  rw [Bound, Bound, scope_bind]
  by_cases hi : i = s ∧ i < h.scopes.size
  · rw [if_pos hi]
    by_cases hx : x = name
    · rw [hx, Table.lookup_set_self]
      exact ⟨fun _ => .inr ⟨hi.1, hi.2, rfl⟩, fun _ => rfl⟩
    · rw [Table.lookup_set_ne hx]
      simp [hx]
  · rw [if_neg hi]
    have hNot : ¬(i = s ∧ i < h.scopes.size ∧ x = name) := fun hAll => hi ⟨hAll.1, hAll.2.1⟩
    simp [hNot]

/-- A name that is not a constant can be set. -/
theorem keeps_bind (hVariable : ∀ b', (h.scope s).lookup name = some b' → b'.constant = false) :
    h.Keeps (h.bind s name b) := by
  refine ⟨fun hBound => bound_bind.mpr (.inl hBound), fun {i x b'} hFound hConstant => ?_⟩
  rw [scope_bind]
  split
  · next hi =>
    obtain ⟨rfl, -⟩ := hi
    have hx : x ≠ name := by
      rintro rfl
      rw [hVariable b' hFound] at hConstant
      cases hConstant
    rw [Table.lookup_set_ne hx]
    exact hFound
  · exact hFound

theorem sameNames_bind (hOther : i ≠ s ∨ h.Bound s name) : SameNames i h (h.bind s name b) := by
  intro x
  rw [bound_bind]
  refine ⟨fun hx => ?_, .inl⟩
  rcases hx with hx | ⟨rfl, -, rfl⟩
  · exact hx
  · exact hOther.resolve_left fun hne => hne rfl

/-! ## Declarations and assignments -/

/-- What a declaration finds is not a constant. -/
theorem variable_of_checkDeclare (hCheck : h.checkDeclare env name = .ok ()) :
    ∀ b, (h.scope env.current).lookup name = some b → b.constant = false := by
  rintro ⟨v, constant⟩ hFound
  rw [checkDeclare, hFound] at hCheck
  cases constant with
  | false => rfl
  | true => cases hCheck

theorem checkDeclare_of_constant (hFound : (h.scope env.current).lookup name = some b)
    (hConstant : b.constant = true) : h.checkDeclare env name = .error (.redeclared name) := by
  obtain ⟨v, constant⟩ := b
  cases hConstant
  rw [checkDeclare, hFound]

/-- The scope that an assignment takes effect in has the name, which is not a constant there. -/
theorem lookup_of_assignTarget (hTarget : h.assignTarget env name = .ok s) :
    ∃ b, (h.scope s).lookup name = some b ∧ b.constant = false := by
  unfold assignTarget at hTarget
  split at hTarget
  · cases hTarget
  · cases hTarget
  · next hFind =>
    cases hTarget
    exact ⟨_, exists_of_find? hFind, rfl⟩

theorem assignTarget_of_constant (hFound : h.lookup? env name = some (s, b))
    (hConstant : b.constant = true) :
    h.assignTarget env name = .error (.assignedConstant name) := by
  obtain ⟨v, constant⟩ := b
  cases hConstant
  rw [assignTarget, hFound]

theorem variable_of_assignTarget (hTarget : h.assignTarget env name = .ok s) :
    ∀ b, (h.scope s).lookup name = some b → b.constant = false := by
  intro b hFound
  obtain ⟨b', hFound', hVariable⟩ := lookup_of_assignTarget hTarget
  cases hFound.symm.trans hFound'
  exact hVariable

theorem bound_of_assignTarget (hTarget : h.assignTarget env name = .ok s) : h.Bound s name := by
  obtain ⟨b, hFound, -⟩ := lookup_of_assignTarget hTarget
  exact bound_of_lookup hFound

end Tern.Heap
