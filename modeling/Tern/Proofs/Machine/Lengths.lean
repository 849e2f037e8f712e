import Tern.Proofs.Machine.Allocation
import Tern.Proofs.Machine.Equality

/-!
# Arrays keep their lengths

An array is made with all of its elements, and every later change replaces one element of it by
another value. So an index that was found to be in range once stays in range, whatever runs before
the element is written.

* `lengthsKept`: the discipline that arrays keep their lengths;
* `Value.integer?`: the number that an index is, and `Eval.position_eq`: what it means;
* `Heap.equalPairs`: the comparison of arrays of one length, element by element;
* `arrays_keep_length`: arrays over the history of a session.
-/

namespace Tern

/-! ## Lengths stay -/

namespace Heap

/-- Arrays are there still, as long as they were. -/
structure KeepsLengths (h h' : Heap) : Prop where
  size : h.arrays.size ≤ h'.arrays.size
  length : ∀ i < h.arrays.size, (h'.elements i).size = (h.elements i).size

variable {h h' : Heap}

theorem KeepsLengths.refl (h : Heap) : h.KeepsLengths h := ⟨Nat.le_refl _, fun _ _ => rfl⟩

theorem KeepsLengths.trans {h₁ h₂ h₃ : Heap} (h : h₁.KeepsLengths h₂)
    (h' : h₂.KeepsLengths h₃) : h₁.KeepsLengths h₃ where
  size := Nat.le_trans h.size h'.size
  length i hi := by rw [h'.length i (Nat.lt_of_lt_of_le hi h.size), h.length i hi]

/-- A change that leaves arrays alone. -/
theorem keepsLengths_of_same (hArrays : h'.arrays = h.arrays) : h.KeepsLengths h' := by
  refine ⟨Nat.le_of_eq (congrArg Array.size hArrays.symm), fun i _ => ?_⟩
  rw [elements, elements, hArrays]

theorem keepsLengths_newArray (h : Heap) (es : Array Value) : h.KeepsLengths (h.newArray es).2 := by
  refine ⟨(grew_newArray h es).arrays, fun i hi => ?_⟩
  rw [elements_newArray, if_neg (Nat.ne_of_lt hi)]

theorem keepsLengths_setElement (h : Heap) (id : ArrayId) (k : Nat) (v : Value) :
    h.KeepsLengths (h.setElement id k v) := by
  refine ⟨Nat.le_of_eq (Array.size_modify ..).symm, fun i _ => ?_⟩
  rw [elements_setElement]
  split
  · exact Array.size_setIfInBounds
  · rfl

/-- What has elements was made. -/
theorem lt_of_lt_size {i : ArrayId} {k : Nat} (hk : k < (h.elements i).size) :
    i < h.arrays.size := by
  refine Nat.lt_of_not_le fun hSize => ?_
  rw [elements, Array.getD, dif_neg (Nat.not_lt.mpr hSize)] at hk
  exact absurd hk (Nat.not_lt_zero k)

end Heap

/-- Arrays keep their lengths. -/
abbrev lengthsKept : Discipline := .ofOrder fun m m' => m.heap.KeepsLengths m'.heap

variable {cfg : Settings} {m m' : Machine}

theorem Heap.lasting_keepsLengths : Heap.Lasting Heap.KeepsLengths where
  refl := .refl
  trans h₁ h₂ := h₁.trans h₂
  countNan _ _ := Heap.keepsLengths_of_same rfl
  newArray := Heap.keepsLengths_newArray
  newObject _ _ := Heap.keepsLengths_of_same rfl
  newScope _ _ := Heap.keepsLengths_of_same rfl
  newClosure _ _ := Heap.keepsLengths_of_same rfl
  setField _ _ _ _ := Heap.keepsLengths_of_same rfl
  setElement := Heap.keepsLengths_setElement
  declare _ _ := Heap.keepsLengths_of_same rfl
  assign _ _ := Heap.keepsLengths_of_same rfl
  withClass _ _ _ _ := Heap.keepsLengths_of_same rfl

theorem lengthsKept_lawful (cfg : Settings) : lengthsKept.Lawful cfg :=
  Heap.lasting_keepsLengths.lawful cfg

/-! ## Indices -/

/-- The whole number that a value is. -/
def Value.integer? (v : Value) : Option Int := v.toFloat?.bind Number.toInt?

/-- The number is the position of an element in something of the length. -/
def InRange (k : Option Int) (length : Nat) : Prop := ∃ i : Nat, k = some i ∧ i < length

namespace Eval

variable {id : ArrayId} {index v w : Value} {n i : Nat}

/-- An index in range means its position. -/
theorem position_of_inRange (hIndex : index.integer? = some (i : Int)) (hRange : i < n)
    (m : Machine) : position index n m = .ok i m := by
  unfold Value.integer? at hIndex
  unfold position
  cases hFloat : index.toFloat? with
  | none =>
    rw [hFloat] at hIndex
    cases hIndex
  | some x =>
    rw [hFloat] at hIndex
    have hBounds : (decide (0 ≤ (i : Int)) && decide ((i : Int) < (n : Int))) = true := by
      simpa using hRange
    rw [hIndex]
    simp only [hBounds, if_true]
    rfl

/-- Any other index is a fault. -/
theorem position_of_not_inRange (hRange : ¬InRange index.integer? n) :
    ∃ f : Fault, f.kind = .index ∧
      ∀ m, position index n m = .error (.fault ⟨f, none⟩) m := by
  unfold Value.integer? at hRange
  unfold position
  cases hFloat : index.toFloat? with
  | none => exact ⟨.indexType index.typeName, rfl, fun m => rfl⟩
  | some x =>
    rw [hFloat] at hRange
    cases hInt : Number.toInt? x with
    | none => exact ⟨.indexType index.typeName, rfl, fun m => by simp only [Option.bind, hInt]; rfl⟩
    | some k =>
      refine ⟨.indexRange x n, rfl, fun m => ?_⟩
      simp only [Option.bind, hInt] at hRange ⊢
      rw [if_neg]
      · rfl
      · intro hBounds
        simp only [Bool.and_eq_true, decide_eq_true_eq] at hBounds
        have hNat : k = ((k.toNat : Nat) : Int) := (Int.toNat_of_nonneg hBounds.1).symm
        exact hRange ⟨k.toNat, congrArg some hNat, by omega⟩

theorem indexTarget_array (id : ArrayId) (index : Value) (m : Machine) :
    indexTarget (.array id) index m =
      (position index (m.heap.elements id).size >>= fun i => pure (id, i)) m := rfl

/-- An index finds its element or its character. -/
theorem readIndex_cases {object : Value} (h : readIndex object index m = .ok v m') :
    m' = m ∧
      ((∃ id, ∃ i : Nat, ∃ hi : i < (m.heap.elements id).size, object = .array id ∧
        index.integer? = some (i : Int) ∧ v = (m.heap.elements id)[i]) ∨
      ∃ s, ∃ i : Nat, ∃ hi : i < s.toList.length, object = .string s ∧
        index.integer? = some (i : Int) ∧ v = .string (String.singleton s.toList[i])) := by
  cases object with
  | array id =>
    change (position index (m.heap.elements id).size >>= fun i =>
      (pure ((m.heap.elements id).getD i .null) : Eval Value)) m = _ at h
    rw [bind_eq] at h
    by_cases hRange : InRange index.integer? (m.heap.elements id).size
    · obtain ⟨i, hIndex, hi⟩ := hRange
      rw [position_of_inRange hIndex hi] at h
      cases h
      refine ⟨rfl, .inl ⟨id, i, hi, rfl, hIndex, ?_⟩⟩
      rw [Array.getD, dif_pos hi]
      rfl
    · obtain ⟨f, -, hFault⟩ := position_of_not_inRange hRange
      rw [hFault] at h
      cases h
  | string s =>
    change (position index s.toList.length >>= fun i =>
      (pure (Value.string (String.ofList (s.toList[i]?.toList))) : Eval Value)) m = _ at h
    rw [bind_eq] at h
    by_cases hRange : InRange index.integer? s.toList.length
    · obtain ⟨i, hIndex, hi⟩ := hRange
      rw [position_of_inRange hIndex hi] at h
      cases h
      refine ⟨rfl, .inr ⟨s, i, hi, rfl, hIndex, ?_⟩⟩
      rw [List.getElem?_eq_getElem hi]
      rfl
    · obtain ⟨f, -, hFault⟩ := position_of_not_inRange hRange
      rw [hFault] at h
      cases h
  | _ => cases h

end Eval

/-! ## Writing elements -/

section

open Eval

variable {fuel depth : Nat} {env : Env} {o i e : Expr} {span : Option Span} {m₁ m₂ m₃ : Machine}
  {id : ArrayId} {index v : Value} {k : Nat}
  (hObject : run cfg fuel (.evaluate (depth + 1) env o) m = .ok (.array id) m₁)
  (hIndex : run cfg fuel (.evaluate (depth + 1) env i) m₁ = .ok index m₂)
include hObject hIndex

/-- An assignment to an index, once the array and the index have values. -/
theorem run_setIndex : run cfg (fuel + 1) (.evaluate depth env (.setIndex o i e span)) m =
    located span (do
      let k ← position index (m₂.heap.elements id).size
      let v ← run cfg fuel (.evaluate (depth + 1) env e)
      update (·.setElement id k v)
      pure v) m₂ := by
  have hRoom := isFull_eq_false_of_succ (isFull_eq_false_of_evaluate hObject)
  change Step.evaluate cfg (run cfg fuel) depth env (.setIndex o i e span) m = _
  rw [Step.evaluate, hRoom]
  change located span (run cfg fuel (.evaluate (depth + 1) env o) >>= fun object =>
    run cfg fuel (.evaluate (depth + 1) env i) >>= fun index =>
      indexTarget object index >>= fun p =>
        run cfg fuel (.evaluate (depth + 1) env e) >>= fun v =>
          update (·.setElement p.1 p.2 v) >>= fun _ => pure v) m = _
  unfold located
  rw [bind_eq, hObject]
  dsimp only
  rw [bind_eq, hIndex]
  dsimp only
  rw [bind_eq, bind_eq, indexTarget_array, bind_eq]
  cases position index (m₂.heap.elements id).size m₂ <;> rfl

/-- An index in range is written once the new element has a value, and it is in range then. -/
theorem run_setIndex_of_inRange (hk : index.integer? = some (k : Int))
    (hRange : k < (m₂.heap.elements id).size)
    (hValue : run cfg fuel (.evaluate (depth + 1) env e) m₂ = .ok v m₃) :
    k < (m₃.heap.elements id).size ∧
      run cfg (fuel + 1) (.evaluate depth env (.setIndex o i e span)) m =
        .ok v (m₃.withHeap (m₃.heap.setElement id k v)) := by
  constructor
  · have hGrows := (lengthsKept_lawful cfg).grows_run fuel (.evaluate (depth + 1) env e) m₂
    rw [final_of_ok hValue] at hGrows
    rw [hGrows.length id (Heap.lt_of_lt_size hRange)]
    exact hRange
  · rw [run_setIndex hObject hIndex]
    unfold located
    rw [bind_eq, position_of_inRange hk hRange]
    dsimp only
    rw [bind_eq, hValue]
    rfl

/-- Any other index is a fault, whatever the new element would be. -/
theorem run_setIndex_of_not_inRange
    (hRange : ¬InRange index.integer? (m₂.heap.elements id).size) :
    ∃ f : Fault, f.kind = .index ∧
      ∀ e, run cfg (fuel + 1) (.evaluate depth env (.setIndex o i e span)) m =
        .error (.fault ⟨f, span⟩) m₂ := by
  obtain ⟨f, hKind, hFault⟩ := position_of_not_inRange hRange
  refine ⟨f, hKind, fun e => ?_⟩
  rw [run_setIndex hObject hIndex]
  unfold located
  rw [bind_eq, hFault]
  rfl

end

/-- The write of an element that is there changes this element of this array only. -/
theorem Heap.getElem?_setElement {h : Heap} {id : ArrayId} {k : Nat} {v : Value}
    (hk : k < (h.elements id).size) (j : ArrayId) (l : Nat) :
    ((h.setElement id k v).elements j)[l]? =
      if j = id ∧ l = k then some v else (h.elements j)[l]? := by
  rw [elements_setElement]
  by_cases hj : j = id
  · subst hj
    rw [if_pos ⟨rfl, lt_of_lt_size hk⟩, Array.getElem?_setIfInBounds]
    by_cases hl : k = l
    · subst hl
      simp [hk]
    · simp [hl, show ¬l = k from fun hSame => hl hSame.symm]
  · simp [hj]

/-! ## Making and comparing arrays -/

/-- As many values come out as there are expressions. -/
theorem length_evaluateAll {fuel depth : Nat} {env : Env} {es : List Expr} {vs : List Value}
    (h : run cfg fuel (.evaluateAll depth env es) m = .ok vs m') : vs.length = es.length := by
  induction fuel generalizing es vs m m' with
  | zero => cases h
  | succ fuel ih =>
    cases es with
    | nil =>
      cases h
      rfl
    | cons e rest =>
      change (run cfg fuel (.evaluate depth env e) >>= fun v =>
        run cfg fuel (.evaluateAll depth env rest) >>= fun vs => pure (v :: vs)) m = _ at h
      rw [Eval.bind_eq] at h
      cases hFirst : run cfg fuel (.evaluate depth env e) m with
      | error s m₁ =>
        rw [hFirst] at h
        cases h
      | ok v m₁ =>
        rw [hFirst] at h
        dsimp only at h
        rw [Eval.bind_eq] at h
        cases hRest : run cfg fuel (.evaluateAll depth env rest) m₁ with
        | error s m₂ =>
          rw [hRest] at h
          cases h
        | ok ws m₂ =>
          rw [hRest] at h
          cases h
          rw [List.length_cons, List.length_cons, ih hRest]

/-- An array literal makes an array of the values of its expressions. -/
theorem run_array {fuel depth : Nat} {env : Env} {es : List Expr} {span : Option Span}
    {v : Value} (h : run cfg (fuel + 1) (.evaluate depth env (.array es span)) m = .ok v m') :
    ∃ vs : List Value, vs.length = es.length ∧ v = .array (m'.heap.arrays.size - 1) ∧
      m'.heap.elements (m'.heap.arrays.size - 1) = vs.toArray := by
  have hRoom := isFull_eq_false_of_evaluate h
  change Step.evaluate cfg (run cfg fuel) depth env (.array es span) m = _ at h
  rw [Step.evaluate, hRoom] at h
  change Eval.located span (run cfg fuel (.evaluateAll (depth + 1) env es) >>= fun vs =>
    Eval.alloc (·.newArray vs.toArray) >>= fun id => pure (Value.array id)) m = _ at h
  unfold Eval.located at h
  rw [Eval.bind_eq] at h
  cases hAll : run cfg fuel (.evaluateAll (depth + 1) env es) m with
  | error s m₁ =>
    rw [hAll] at h
    cases h
  | ok vs m₁ =>
    rw [hAll] at h
    cases h
    have hSize : (m₁.heap.newArray vs.toArray).2.arrays.size - 1 = m₁.heap.arrays.size := by
      simp [Heap.newArray]
    refine ⟨vs, length_evaluateAll hAll, ?_, ?_⟩
    · exact congrArg Value.array hSize.symm
    · change (m₁.heap.newArray vs.toArray).2.elements
        ((m₁.heap.newArray vs.toArray).2.arrays.size - 1) = _
      rw [hSize, Heap.elements_newArray, if_pos rfl]

namespace Heap

/-- Compares pairs of values one by one until two differ. -/
def equalPairs (compare : Pairs → Value → Value → Option (Bool × Pairs)) :
    Pairs → List (Value × Value) → Option (Bool × Pairs)
  | met, [] => some (true, met)
  | met, p :: rest =>
    match compare met p.1 p.2 with
    | some (true, met) => equalPairs compare met rest
    | other => other

/-- Rows of one length are compared without one of them ending early. -/
theorem equalAll_eq_equalPairs (compare : Pairs → Value → Value → Option (Bool × Pairs))
    {as bs : List Value} (hLength : as.length = bs.length) (met : Pairs) :
    equalAll compare met as bs = equalPairs compare met (as.zip bs) := by
  induction as generalizing bs met with
  | nil =>
    cases bs with
    | nil => rfl
    | cons b bs => cases hLength
  | cons a as ih =>
    cases bs with
    | nil => cases hLength
    | cons b bs =>
      rw [List.zip_cons_cons, equalAll, equalPairs]
      dsimp only
      cases compare met a b with
      | none => rfl
      | some r =>
        obtain ⟨equal, met'⟩ := r
        cases equal with
        | false => rfl
        | true => exact ih (Nat.succ.inj hLength) met'

/-- The comparison of two arrays only ever compares elements that are there. -/
theorem equalIn_array (h : Heap) (room : Nat) (met : Pairs) (i j : ArrayId) :
    h.equalIn (room + 1) met (.array i) (.array j) =
      if i = j then some (true, met)
      else if (h.elements i).size ≠ (h.elements j).size then some (false, met)
      else if met.any (fun p => p.1 == i && p.2 == j) then some (true, met)
      else equalPairs (h.equalIn room) ((i, j) :: met)
        ((h.elements i).toList.zip (h.elements j).toList) := by
  rw [equalIn]
  split
  · rfl
  · split
    · rfl
    · next hSize =>
      split
      · rfl
      · refine equalAll_eq_equalPairs _ ?_ _
        simpa using hSize

end Heap

/-! ## Sessions -/

/-- Arrays over the history of a session, in whatever steps, with a host that makes nothing up.
Every array that a value stands for was made, and keeps its length from each machine that the
session comes by to every later one. When an element is assigned, an index that is in range before
the new element has its value is in range afterwards, and this element of this array is the only
one that changes; any other index is a fault, which leaves the machine as the index did, whatever
the new element would be. An array literal makes an array of as many elements as it has
expressions, a read that succeeds finds an element or a character that is there, and the comparison
of two arrays compares elements that are there. -/
theorem arrays_keep_length (s : Session) (steps : List Session.Step)
    (hHost : s.settings.host.Honest) (hSound : s.machine.heap.Sound)
    (hGlobals : s.machine.heap.Spans s.globals) :
    (∀ x, s.Meets steps x → ∀ i, x.heap.Has (.array i) → i < x.heap.arrays.size) ∧
    (∀ x y, s.Earlier steps x y → ∀ i < x.heap.arrays.size,
      i < y.heap.arrays.size ∧ (y.heap.elements i).size = (x.heap.elements i).size) ∧
    (∀ fuel depth env o i m id m₁ index m₂,
      run s.settings fuel (.evaluate (depth + 1) env o) m = .ok (.array id) m₁ →
      run s.settings fuel (.evaluate (depth + 1) env i) m₁ = .ok index m₂ →
      (∀ (k : Nat) e v m₃ span, index.integer? = some (k : Int) →
        k < (m₂.heap.elements id).size →
        run s.settings fuel (.evaluate (depth + 1) env e) m₂ = .ok v m₃ →
        k < (m₃.heap.elements id).size ∧
        run s.settings (fuel + 1) (.evaluate depth env (.setIndex o i e span)) m =
          .ok v (m₃.withHeap (m₃.heap.setElement id k v)) ∧
        ∀ j l : Nat, ((m₃.heap.setElement id k v).elements j)[l]? =
          if j = id ∧ l = k then some v else (m₃.heap.elements j)[l]?) ∧
      (¬InRange index.integer? (m₂.heap.elements id).size → ∀ span,
        ∃ f : Fault, f.kind = .index ∧ ∀ e,
          run s.settings (fuel + 1) (.evaluate depth env (.setIndex o i e span)) m =
            .error (.fault ⟨f, span⟩) m₂)) ∧
    (∀ fuel depth env es span m v m',
      run s.settings (fuel + 1) (.evaluate depth env (.array es span)) m = .ok v m' →
      ∃ vs : List Value, vs.length = es.length ∧ v = .array (m'.heap.arrays.size - 1) ∧
        m'.heap.elements (m'.heap.arrays.size - 1) = vs.toArray) ∧
    (∀ object index m v m', Eval.readIndex object index m = .ok v m' → m' = m ∧
      ((∃ id, ∃ i : Nat, ∃ hi : i < (m.heap.elements id).size, object = .array id ∧
        index.integer? = some (i : Int) ∧ v = (m.heap.elements id)[i]) ∨
      ∃ t, ∃ i : Nat, ∃ hi : i < t.toList.length, object = .string t ∧
        index.integer? = some (i : Int) ∧ v = .string (String.singleton t.toList[i]))) ∧
    ∀ (h : Heap) room met i j, h.equalIn (room + 1) met (.array i) (.array j) =
      if i = j then some (true, met)
      else if (h.elements i).size ≠ (h.elements j).size then some (false, met)
      else if met.any (fun p => p.1 == i && p.2 == j) then some (true, met)
      else Heap.equalPairs (h.equalIn room) ((i, j) :: met)
        ((h.elements i).toList.zip (h.elements j).toList) := by
  refine ⟨?known, ?kept, ?assigned, ?made, ?read, Heap.equalIn_array⟩
  case known =>
    intro x hMeets i hHas
    exact (Session.sound_of_meets hHost hSound hGlobals hMeets).values _ hHas i rfl
  case kept =>
    intro x y hEarlier i hi
    have hKeeps : x.heap.KeepsLengths y.heap :=
      (lengthsKept_lawful s.settings).grows_of_earlier (Discipline.level_ofHeaps _) hEarlier
    exact ⟨Nat.lt_of_lt_of_le hi hKeeps.size, hKeeps.length i hi⟩
  case assigned =>
    intro fuel depth env o i m id m₁ index m₂ hObject hIndex
    refine ⟨fun k e v m₃ span hk hRange hValue => ?_, fun hRange span =>
      run_setIndex_of_not_inRange hObject hIndex hRange⟩
    obtain ⟨hStill, hRun⟩ := run_setIndex_of_inRange hObject hIndex hk hRange hValue
    exact ⟨hStill, hRun, Heap.getElem?_setElement hStill⟩
  case made => exact fun fuel depth env es span m v m' hRun => run_array hRun
  case read => exact fun object index m v m' hRead => Eval.readIndex_cases hRead

/-- A session with a name `a` for an array of two elements. -/
def withArray : Session :=
  { Session.standard with
    machine := Session.standard.machine.withHeap
      ((Session.standard.machine.heap.newArray #[.null, .null]).2.bind 0 "a" ⟨.array 0, false⟩) }

theorem sound_withArray : withArray.machine.heap.Sound := by
  refine ((sound_create _ Native.standard).newArray fun v hv => ?_).bind 0 "a" ?_
  · have hNull : v = .null := by simpa using hv
    subst hNull
    exact nofun
  · rintro i ⟨⟩
    exact Nat.one_pos

/-- The array has two elements still after a run that assigns to them, and an index that is no
number is refused before the new element has a value. -/
theorem arrays_keep_length_withArray :
    ((withArray.next (.run "a[0] = a;" none)).machine.heap.elements 0).size = 2 ∧
      ∃ f : Fault, f.kind = .index ∧ ∀ e,
        run withArray.settings 2 (.evaluate 0 ⟨0, []⟩
          (.setIndex (.name ⟨"a", none⟩) (.name ⟨"a", none⟩) e none)) withArray.machine =
            .error (.fault ⟨f, none⟩) withArray.machine := by
  have hHost : withArray.settings.host.Honest := Session.Options.honest_standard
  have hGlobals : withArray.machine.heap.Spans withArray.globals := by
    intro i hi
    obtain rfl := List.mem_singleton.mp hi
    exact Nat.one_pos
  have hEarlier : withArray.Earlier [.run "a[0] = a;" none] withArray.machine
      (withArray.next (.run "a[0] = a;" none)).machine := .here (.later .here)
  obtain ⟨-, kept, assigned, -⟩ :=
    arrays_keep_length withArray [.run "a[0] = a;" none] hHost sound_withArray hGlobals
  have hRead : run withArray.settings 1 (.evaluate 1 ⟨0, []⟩ (.name ⟨"a", none⟩))
      withArray.machine = .ok (.array 0) withArray.machine := rfl
  refine ⟨(kept _ _ hEarlier 0 Nat.one_pos).2,
    (assigned 1 0 _ _ _ _ _ _ _ _ hRead hRead).2 ?_ none⟩
  rintro ⟨i, hIndex, -⟩
  cases hIndex

end Tern
