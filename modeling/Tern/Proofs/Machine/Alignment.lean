import Tern.Proofs.Machine.Allocation
import Tern.Proofs.Machine.Lockstep

/-!
# Idle scopes

A scope that nothing is ever declared in makes no difference, but the scopes that are made after it
get other numbers. An `Alignment` says which scope of a first heap each scope of a second one
stands for; those that stand for none are idle, and empty. Two chains of scopes are aligned if they
are the same up to idle scopes in the second one, and two heaps are aligned if all else on them is
the same.

* `Alignment`, `Alignment.Aligns`: pairs of scopes, and of chains of scopes;
* `Heap.Aligned`: heaps that are the same up to idle scopes;
* `alignment`, `alignment_lawful`: the simulation that this is, where the host sets no limit.
-/

namespace Tern

/-! ## Alignments -/

/-- The scope that each scope of the second heap stands for; an idle one stands for none. -/
abbrev Alignment := Array (Option ScopeId)

namespace Alignment

/-- The scope `b` stands for the scope `a`. -/
def Pairs (A : Alignment) (a b : ScopeId) : Prop := A[b]? = some (some a)

/-- The scope `b` stands for none. -/
def Idle (A : Alignment) (b : ScopeId) : Prop := A[b]? = some none

/-- Two chains are the same up to idle scopes in the second one. -/
inductive Aligns (A : Alignment) : List ScopeId → List ScopeId → Prop
  | nil : Aligns A [] []
  | pair {a b : ScopeId} {as bs : List ScopeId} (head : A.Pairs a b) (tail : Aligns A as bs) :
      Aligns A (a :: as) (b :: bs)
  | idle {b : ScopeId} {as bs : List ScopeId} (head : A.Idle b) (tail : Aligns A as bs) :
      Aligns A as (b :: bs)

/-- Scopes stand for what they stood for before. -/
def Later (A A' : Alignment) : Prop := ∀ (b : ScopeId) x, A[b]? = some x → A'[b]? = some x

/-- One more scope in the second heap. -/
def add (A : Alignment) (x : Option ScopeId) : Alignment := Array.push A x

/-- Each of `n` scopes stands for itself. -/
def whole (n : Nat) : Alignment := (Array.range n).map some

variable {A A' : Alignment} {a b : ScopeId} {as bs : List ScopeId} {n : Nat}

theorem Later.refl (A : Alignment) : A.Later A := fun _ _ h => h

theorem Later.trans {A₁ A₂ A₃ : Alignment} (h : A₁.Later A₂) (h' : A₂.Later A₃) : A₁.Later A₃ :=
  fun b x hb => h' b x (h b x hb)

theorem Aligns.mono (hLater : A.Later A') (h : A.Aligns as bs) : A'.Aligns as bs := by
  induction h with
  | nil => exact .nil
  | pair head _ ih => exact .pair (hLater _ _ head) ih
  | idle head _ ih => exact .idle (hLater _ _ head) ih

theorem getElem?_add (A : Alignment) (x : Option ScopeId) (b : ScopeId) :
    (A.add x)[b]? = if b = A.size then some x else A[b]? :=
  Array.getElem?_push

theorem Pairs.lt (h : A.Pairs a b) : b < A.size := (Array.getElem?_eq_some_iff.mp h).1

theorem Idle.lt (h : A.Idle b) : b < A.size := (Array.getElem?_eq_some_iff.mp h).1

theorem later_add (A : Alignment) (x : Option ScopeId) : A.Later (A.add x) := by
  intro b y hb
  have hLt : b < A.size := (Array.getElem?_eq_some_iff.mp hb).1
  rw [getElem?_add, if_neg (Nat.ne_of_lt hLt)]
  exact hb

/-- What is aligned with one more scope in the second heap. -/
theorem pairs_add {x : Option ScopeId} (h : (A.add x).Pairs a b) :
    A.Pairs a b ∨ b = A.size ∧ x = some a := by
  unfold Pairs at h
  rw [getElem?_add] at h
  split at h
  · next hb => exact .inr ⟨hb, Option.some.inj h⟩
  · exact .inl h

theorem idle_add {x : Option ScopeId} (h : (A.add x).Idle b) :
    A.Idle b ∨ b = A.size ∧ x = none := by
  unfold Idle at h
  rw [getElem?_add] at h
  split at h
  · next hb => exact .inr ⟨hb, Option.some.inj h⟩
  · exact .inl h

theorem pairs_add_self (A : Alignment) (a : ScopeId) : (A.add (some a)).Pairs a A.size := by
  unfold Pairs
  rw [getElem?_add, if_pos rfl]

theorem idle_add_self (A : Alignment) : (A.add none).Idle A.size := by
  unfold Idle
  rw [getElem?_add, if_pos rfl]

/-! ### The whole alignment -/

theorem getElem?_whole (n : Nat) (b : ScopeId) :
    (whole n)[b]? = if b < n then some (some b) else none := by
  unfold whole
  rw [Array.getElem?_map]
  split
  · next hb =>
    rw [Array.getElem?_range, if_pos hb]
    rfl
  · next hb =>
    rw [Array.getElem?_range, if_neg hb]
    rfl

theorem pairs_whole (h : b < n) : (whole n).Pairs b b := by
  unfold Pairs
  rw [getElem?_whole, if_pos h]

theorem eq_of_pairs_whole (h : (whole n).Pairs a b) : a = b ∧ b < n := by
  unfold Pairs at h
  rw [getElem?_whole] at h
  split at h
  · next hb => exact ⟨(Option.some.inj (Option.some.inj h)).symm, hb⟩
  · cases h

theorem not_idle_whole : ¬(whole n).Idle b := by
  unfold Idle
  rw [getElem?_whole]
  split <;> simp

theorem aligns_whole (h : ∀ i ∈ as, i < n) : (whole n).Aligns as as := by
  induction as with
  | nil => exact .nil
  | cons i rest ih =>
    obtain ⟨hFirst, hRest⟩ := List.forall_mem_cons.mp h
    exact .pair (pairs_whole hFirst) (ih hRest)

end Alignment

/-! ## Heaps -/

/-- Heaps that are the same up to idle scopes. -/
structure Heap.Aligned (A : Alignment) (h h' : Heap) : Prop where
  size : A.size = h'.scopes.size
  known : ∀ {a b}, A.Pairs a b → a < h.scopes.size
  scope : ∀ {a b}, A.Pairs a b → h'.scope b = h.scope a
  empty : ∀ {b}, A.Idle b → h'.scope b = []
  unique : ∀ {a b b'}, A.Pairs a b → A.Pairs a b' → b' = b
  arrays : h'.arrays = h.arrays
  objects : h'.objects = h.objects
  classes : h'.classes = h.classes
  nans : h'.nans = h.nans
  closures : h'.closures.size = h.closures.size
  closure : ∀ i, (h'.closure i).definition = (h.closure i).definition ∧
    (h'.closure i).initializer = (h.closure i).initializer ∧
    A.Aligns (h.closure i).env.scopes (h'.closure i).env.scopes

namespace Heap.Aligned

variable {A : Alignment} {h h' : Heap} {env env' : Env} {a b : ScopeId} {name : String}

/-- A heap is aligned with itself if its functions stand in scopes that were made. -/
theorem whole (hSpans : ∀ i, h.Spans (h.closure i).env) :
    h.Aligned (.whole h.scopes.size) h where
  size := by simp [Alignment.whole]
  known hPair := by
    obtain ⟨rfl, hLt⟩ := Alignment.eq_of_pairs_whole hPair
    exact hLt
  scope hPair := by
    obtain ⟨rfl, -⟩ := Alignment.eq_of_pairs_whole hPair
    rfl
  empty hIdle := absurd hIdle Alignment.not_idle_whole
  unique hPair hPair' := by
    obtain ⟨rfl, -⟩ := Alignment.eq_of_pairs_whole hPair
    exact (Alignment.eq_of_pairs_whole hPair').1.symm
  arrays := rfl
  objects := rfl
  classes := rfl
  nans := rfl
  closures := rfl
  closure i := ⟨rfl, rfl, Alignment.aligns_whole (hSpans i)⟩

/-- Nothing but the scopes and the environments of functions is different. -/
theorem alike (hh : h.Aligned A h') : h' = h.withNames h' := by
  obtain ⟨-, -, -, -, -, hArrays, hObjects, hClasses, hNans, -, -⟩ := hh
  obtain ⟨scopes', arrays', objects', closures', classes', nans'⟩ := h'
  cases hArrays
  cases hObjects
  cases hClasses
  cases hNans
  rfl

theorem cells (hh : h.Aligned A h') (k : Heap) : (k.withNames h).Aligned A (k.withNames h') :=
  ⟨hh.size, hh.known, hh.scope, hh.empty, hh.unique, rfl, rfl, rfl, rfl, hh.closures, hh.closure⟩

/-- Names are found in scopes that stand for each other, or not at all. -/
theorem find? (hh : h.Aligned A h') {as bs : List ScopeId} (hAligns : A.Aligns as bs)
    (name : String) :
    h.find? name as = none ∧ h'.find? name bs = none ∨
      ∃ a b e, A.Pairs a b ∧ h.find? name as = some (a, e) ∧ h'.find? name bs = some (b, e) := by
  induction hAligns with
  | nil => exact .inl ⟨rfl, rfl⟩
  | @pair a b as bs head tail ih =>
    rw [Heap.find?, Heap.find?, hh.scope head]
    cases (h.scope a).lookup name with
    | some e => exact .inr ⟨a, b, e, head, rfl, rfl⟩
    | none => exact ih
  | @idle b as bs head tail ih =>
    have hSkip : h'.find? name (b :: bs) = h'.find? name bs := by
      rw [Heap.find?, hh.empty head]
      rfl
    rw [hSkip]
    exact ih

theorem get (hh : h.Aligned A h') (hAligns : A.Aligns env.scopes env'.scopes) (name : String) :
    h'.get env' name = h.get env name := by
  unfold Heap.get Heap.lookup?
  rcases hh.find? hAligns name with ⟨hFirst, hSecond⟩ | ⟨a, b, e, -, hFirst, hSecond⟩
  · rw [hFirst, hSecond]
  · rw [hFirst, hSecond]

/-- The same is bound in scopes that stand for each other. -/
theorem bind (hh : h.Aligned A h') (hPair : A.Pairs a b) (name : String) (e : Binding) :
    (h.bind a name e).Aligned A (h'.bind b name e) where
  size := by
    rw [hh.size]
    exact (Array.size_modify ..).symm
  known hPair' := by
    rw [Heap.bind, Array.size_modify]
    exact hh.known hPair'
  scope {a' b'} hPair' := by
    have hKnown := hh.known hPair
    have hKnown' : b < h'.scopes.size := hh.size ▸ hPair.lt
    rw [scope_bind, scope_bind, hh.scope hPair']
    by_cases hSame : a' = a
    · subst hSame
      obtain rfl := hh.unique hPair hPair'
      rw [if_pos ⟨rfl, hKnown'⟩, if_pos ⟨rfl, hKnown⟩]
    · have hOther : b' ≠ b := by
        rintro rfl
        exact hSame (Option.some.inj (Option.some.inj (hPair'.symm.trans hPair)))
      rw [if_neg fun hb => hOther hb.1, if_neg fun ha => hSame ha.1]
  empty {b'} hIdle := by
    have hOther : b' ≠ b := by
      rintro rfl
      cases hIdle.symm.trans hPair
    rw [scope_bind, if_neg fun hb => hOther hb.1]
    exact hh.empty hIdle
  unique := hh.unique
  arrays := hh.arrays
  objects := hh.objects
  classes := hh.classes
  nans := hh.nans
  closures := hh.closures
  closure := hh.closure

theorem assignTarget (hh : h.Aligned A h') (hAligns : A.Aligns env.scopes env'.scopes)
    (name : String) :
    (∃ e, h.assignTarget env name = .error e ∧ h'.assignTarget env' name = .error e) ∨
      ∃ a b, h.assignTarget env name = .ok a ∧ h'.assignTarget env' name = .ok b ∧
        ∀ e, (h.bind a name e).Aligned A (h'.bind b name e) := by
  unfold Heap.assignTarget Heap.lookup?
  rcases hh.find? hAligns name with ⟨hFirst, hSecond⟩ | ⟨a, b, e, hPair, hFirst, hSecond⟩
  · rw [hFirst, hSecond]
    exact .inl ⟨_, rfl, rfl⟩
  · rw [hFirst, hSecond]
    obtain ⟨v, constant⟩ := e
    cases constant with
    | true => exact .inl ⟨_, rfl, rfl⟩
    | false => exact .inr ⟨a, b, rfl, rfl, hh.bind hPair name⟩

theorem checkDeclare (hh : h.Aligned A h') (hPair : A.Pairs env.current env'.current)
    (name : String) : h'.checkDeclare env' name = h.checkDeclare env name := by
  unfold Heap.checkDeclare
  rw [hh.scope hPair]

theorem newClosure (hh : h.Aligned A h') (hAligns : A.Aligns env.scopes env'.scopes) (f : FuncDef)
    (initializer : Bool) : (h.newClosure ⟨f, env, initializer⟩).2.Aligned A
      (h'.newClosure ⟨f, env', initializer⟩).2 where
  size := hh.size
  known := hh.known
  scope := hh.scope
  empty := hh.empty
  unique := hh.unique
  arrays := hh.arrays
  objects := hh.objects
  classes := hh.classes
  nans := hh.nans
  closures := by simp [Heap.newClosure, hh.closures]
  closure i := by
    rw [closure_newClosure, closure_newClosure, hh.closures]
    split
    · exact ⟨rfl, rfl, hAligns⟩
    · exact hh.closure i

/-! ### New scopes -/

/-- A new scope in the second heap, which is idle or stands for a new one of the first. -/
theorem add (hh : h.Aligned A h') {x : Option ScopeId} {scopes : Array Scope} {names : Scope}
    (hKept : ∀ i < h.scopes.size, scopes.getD i [] = h.scope i)
    (hSize : h.scopes.size ≤ scopes.size)
    (hNew : ∀ a, x = some a → a = h.scopes.size ∧ a < scopes.size ∧ scopes.getD a [] = names)
    (hIdle : x = none → names = []) :
    { h with scopes := scopes }.Aligned (A.add x) (h'.newScope names).2 where
  size := by simp [Alignment.add, Heap.newScope, hh.size]
  known hPair := by
    rcases Alignment.pairs_add hPair with hOld | ⟨-, hx⟩
    · exact Nat.lt_of_lt_of_le (hh.known hOld) hSize
    · exact (hNew _ hx).2.1
  scope {a b} hPair := by
    rw [scope_newScope]
    rcases Alignment.pairs_add hPair with hOld | ⟨rfl, hx⟩
    · rw [if_neg (hh.size ▸ Nat.ne_of_lt hOld.lt), hh.scope hOld]
      exact (hKept a (hh.known hOld)).symm
    · rw [if_pos hh.size]
      exact (hNew a hx).2.2.symm
  empty {b} hIdle' := by
    rw [scope_newScope]
    rcases Alignment.idle_add hIdle' with hOld | ⟨rfl, hx⟩
    · rw [if_neg (hh.size ▸ Nat.ne_of_lt hOld.lt)]
      exact hh.empty hOld
    · rw [if_pos hh.size]
      exact hIdle hx
  unique {a b b'} hPair hPair' := by
    rcases Alignment.pairs_add hPair with hOld | ⟨rfl, hx⟩
    · rcases Alignment.pairs_add hPair' with hOld' | ⟨rfl, hx'⟩
      · exact hh.unique hOld hOld'
      · exact absurd (hNew a hx').1 (Nat.ne_of_lt (hh.known hOld))
    · rcases Alignment.pairs_add hPair' with hOld' | ⟨rfl, -⟩
      · exact absurd (hNew a hx).1 (Nat.ne_of_lt (hh.known hOld'))
      · rfl
  arrays := hh.arrays
  objects := hh.objects
  classes := hh.classes
  nans := hh.nans
  closures := hh.closures
  closure i := by
    obtain ⟨hDefinition, hInitializer, hAligns⟩ := hh.closure i
    exact ⟨hDefinition, hInitializer, hAligns.mono (A.later_add x)⟩

/-- A new scope on both sides. -/
theorem newScope (hh : h.Aligned A h') (names : Scope) :
    (h.newScope names).2.Aligned (A.add (some h.scopes.size)) (h'.newScope names).2 := by
  refine hh.add (fun i hi => ?_) ?_ ?_ nofun
  · rw [getD_push, if_neg (Nat.ne_of_lt hi)]
    rfl
  · simp
  · intro a ha
    obtain rfl := Option.some.inj ha
    refine ⟨rfl, by simp, ?_⟩
    rw [getD_push, if_pos rfl]

/-- An idle scope in the second heap. -/
theorem newIdle (hh : h.Aligned A h') : h.Aligned (A.add none) (h'.newScope []).2 :=
  hh.add (fun _ _ => rfl) (Nat.le_refl _) nofun fun _ => rfl

end Heap.Aligned

/-! ## The simulation -/

namespace Disguise

theorem unplaced_id : id (none : Option Span) = none := rfl

theorem settled_id (place : Span) (s : Option Span) :
    (id (some place)).or (id s) = id (some place) := rfl

/-- No disguise at all. -/
def transparent : Disguise := ⟨id, id, id, unplaced_id, settled_id⟩

theorem signal_transparent (s : Signal) : transparent.signal s = s := by
  cases s with
  | thrown t =>
    obtain ⟨v, e, span⟩ := t
    cases e <;> rfl
  | _ => rfl

theorem completion_transparent (c : Completion) : transparent.completion c = c := by
  cases c with
  | throw t =>
    obtain ⟨v, e, span⟩ := t
    cases e <;> rfl
  | _ => rfl

end Disguise

/-- Runs on heaps that are aligned. Expressions may stand in an idle scope, statements that declare
names may not. Depths do not count. -/
def alignment (firstMayTire secondMayTire : Prop) : Simulation where
  World := Alignment
  Later := Alignment.Later
  Heaps A h h' := h.Aligned A h'
  Sees A env env' := A.Aligns env.scopes env'.scopes
  Stands A env env' := A.Pairs env.current env'.current ∧ A.Aligns env.outer env'.outer
  Deep _ _ := True
  veil := .transparent
  firstMayTire := firstMayTire
  secondMayTire := secondMayTire

theorem alignment_lawful {cfg : Settings} (hLimit : cfg.stackLimit = none)
    (firstMayTire secondMayTire : Prop) :
    (alignment firstMayTire secondMayTire).Lawful cfg cfg where
  refl := Alignment.Later.refl
  trans := Alignment.Later.trans
  sees_later hLater h := h.mono hLater
  stands_later hLater h := ⟨hLater _ _ h.1, h.2.mono hLater⟩
  sees h := .pair h.1 h.2
  deeper _ := trivial
  room _ := by
    unfold Settings.room
    rw [hLimit]
    rfl
  host := rfl
  limit := rfl
  debug _ _ := rfl
  alike hh := hh.alike
  cells hh := hh.cells
  closure hh i := by
    obtain ⟨hDefinition, hRest⟩ := hh.closure i
    exact ⟨hDefinition.trans (FuncDef.respan_id _).symm, hRest⟩
  newClosure hh hAligns f initializer := by
    have hCode : f.respan (alignment firstMayTire secondMayTire).veil.span = f :=
      FuncDef.respan_id f
    rw [hCode]
    exact ⟨hh.closures, hh.newClosure hAligns f initializer⟩
  get hh hAligns := hh.get hAligns
  assign hh hAligns := hh.assignTarget hAligns
  declare hh hStands name := ⟨hh.checkDeclare hStands.1 name, hh.bind hStands.1 name⟩
  enter {A h h' env env'} hh hAligns names := by
    have hLater := A.later_add (some h.scopes.size)
    refine ⟨A.add (some h.scopes.size), hLater, hh.newScope names, ?_, hAligns.mono hLater⟩
    have hPair := A.pairs_add_self h.scopes.size
    rw [hh.size] at hPair
    exact hPair

end Tern
