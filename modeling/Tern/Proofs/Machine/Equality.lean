import Tern.Proofs.Machine.Script
import Tern.Proofs.Value.Bisimilarity

/-!
# Equality in programs

What `==` and `!=` answer. They change nothing, and the only thing that can keep them from an
answer is a lack of room in the host. Of values from which no `nan` can be reached the answer is
whether they are bisimilar, so it is an equivalence on them. Of numbers it is whether they are
equal as doubles, with one exception: a `nan` that is read twice is equal to itself.

* `Eval.Equates`: the answers to `==` and `!=`;
* `Eval.equates_iff_bisimilar`: of values without a `nan`, the answer is whether they are
  bisimilar;
* `run_equal_of_numbers`: the answer for numbers, and for arrays of numbers.
-/

namespace Tern

namespace Eval

variable {cfg : Settings} {depth : Nat} {m : Machine} {a b c : Value} {r r' : Bool}

/-- `==` answers `r` and `!=` the opposite, and nothing changes. -/
structure Equates (cfg : Settings) (depth : Nat) (m : Machine) (a b : Value) (r : Bool) :
    Prop where
  equal : binary cfg depth .equal a b m = .ok (.bool r) m
  notEqual : binary cfg depth .notEqual a b m = .ok (.bool !r) m

theorem equal_eq (cfg : Settings) (depth : Nat) (a b : Value) (m : Machine) :
    Eval.equal cfg depth a b m = match m.heap.equal? (cfg.room depth) a b with
      | some r => .ok r m
      | none => .error (.overflow overflowMessage) m := by
  change (match m.heap.equal? (cfg.room depth) a b with
    | some r => (pure r : Eval Bool)
    | none => overflow) m = _
  cases m.heap.equal? (cfg.room depth) a b <;> rfl

theorem binary_equal_eq (cfg : Settings) (depth : Nat) (a b : Value) (m : Machine) :
    binary cfg depth .equal a b m = match m.heap.equal? (cfg.room depth) a b with
      | some r => .ok (.bool r) m
      | none => .error (.overflow overflowMessage) m := by
  change (Eval.equal cfg depth a b >>= fun e => (pure (.bool e) : Eval Value)) m = _
  rw [bind_eq, equal_eq]
  cases m.heap.equal? (cfg.room depth) a b <;> rfl

theorem binary_notEqual_eq (cfg : Settings) (depth : Nat) (a b : Value) (m : Machine) :
    binary cfg depth .notEqual a b m = match m.heap.equal? (cfg.room depth) a b with
      | some r => .ok (.bool !r) m
      | none => .error (.overflow overflowMessage) m := by
  change (Eval.equal cfg depth a b >>= fun e => (pure (.bool !e) : Eval Value)) m = _
  rw [bind_eq, equal_eq]
  cases m.heap.equal? (cfg.room depth) a b <;> rfl

theorem equates_iff : Equates cfg depth m a b r ↔ m.heap.equal? (cfg.room depth) a b = some r := by
  constructor
  · intro hEquates
    have hAnswer := hEquates.equal
    rw [binary_equal_eq] at hAnswer
    split at hAnswer
    case h_1 r' hr =>
      cases hAnswer
      exact hr
    case h_2 => cases hAnswer
  · intro hAnswer
    exact ⟨by rw [binary_equal_eq, hAnswer], by rw [binary_notEqual_eq, hAnswer]⟩

theorem Equates.bisimilar_iff (hClear : m.heap.IsClear a) (hEquates : Equates cfg depth m a b r) :
    r = true ↔ m.heap.Bisimilar a b := by
  have hAnswer := equates_iff.mp hEquates
  refine ⟨fun hTrue => ?_, fun hSimilar => Heap.equal?_of_bisimilar hSimilar hAnswer⟩
  subst hTrue
  exact Heap.bisimilar_of_equal? hClear hAnswer

/-- Equality decides bisimilarity. It has an answer, of which `!=` gives the opposite, unless
the host runs out of room. On values from which no `nan` can be reached the answer is whether
they are bisimilar; so every such value is equal to itself, the sides can be exchanged, and what
is equal to a common third is equal. -/
theorem equates_iff_bisimilar (cfg : Settings) (depth : Nat) (m : Machine) :
    (∀ a b, cfg.stackLimit = none → ∃ r, Equates cfg depth m a b r) ∧
    (∀ a b, (∃ r, Equates cfg depth m a b r) ∨
      binary cfg depth .equal a b m = .error (.overflow overflowMessage) m ∧
      binary cfg depth .notEqual a b m = .error (.overflow overflowMessage) m) ∧
    (∀ a b r, m.heap.IsClear a → m.heap.IsClear b → Equates cfg depth m a b r →
      (r = true ↔ m.heap.Bisimilar a b)) ∧
    (∀ a r, m.heap.IsClear a → Equates cfg depth m a a r → r = true) ∧
    (∀ a b r r', m.heap.IsClear a → m.heap.IsClear b → Equates cfg depth m a b r →
      Equates cfg depth m b a r' → r = r') ∧
    ∀ a b c r, m.heap.IsClear a → m.heap.IsClear b → m.heap.IsClear c →
      Equates cfg depth m a b true → Equates cfg depth m b c true → Equates cfg depth m a c r →
      r = true := by
  refine ⟨fun a b hStack => ?terminates, fun a b => ?orOverflow, fun a b r ha _ => ?decides,
    fun a r ha hSelf => ?reflexive, fun a b r r' ha hb hab hba => ?symmetric,
    fun a b c r ha hb _ hab hbc hac => ?transitive⟩
  case terminates =>
    obtain ⟨r, hAnswer⟩ := m.heap.exists_equal? a b
    have hRoom : cfg.room depth = none := by rw [Settings.room, hStack, Option.map_none]
    exact ⟨r, equates_iff.mpr (by rw [hRoom, hAnswer])⟩
  case orOverflow =>
    cases hAnswer : m.heap.equal? (cfg.room depth) a b with
    | some r => exact .inl ⟨r, equates_iff.mpr hAnswer⟩
    | none => exact .inr ⟨by rw [binary_equal_eq, hAnswer], by rw [binary_notEqual_eq, hAnswer]⟩
  case decides => exact Equates.bisimilar_iff ha
  case reflexive => exact (hSelf.bisimilar_iff ha).mpr (.refl ha)
  case symmetric =>
    refine Bool.eq_iff_iff.mpr ((hab.bisimilar_iff ha).trans ?_)
    exact Iff.trans ⟨.symm, .symm⟩ (hba.bisimilar_iff hb).symm
  case transitive =>
    have hSimilar := (hab.bisimilar_iff ha).mp rfl
    exact (hac.bisimilar_iff ha).mpr (hSimilar.trans ((hbc.bisimilar_iff hb).mp rfl))

/-- Three arrays that contain themselves. The first two look the same from everywhere. -/
def knots : Machine :=
  let arrays := #[#[.number 1, .array 0], #[.number 1, .array 1], #[.number 2, .array 0]]
  ⟨⟨#[], arrays, #[], #[], 0, 0⟩, .ofLines [], #[], 0, 0⟩

theorem isClear_knots (i : ArrayId) : knots.heap.IsClear (.array i) :=
  Heap.isClear_of_arrays (by decide) rfl

/-- The settings of a session as it is opened, on a host that never runs out of room. -/
def roomy : Settings := { Session.standard.settings with stackLimit := none }

theorem equates_iff_bisimilar_knots :
    Equates roomy 0 knots (.array 0) (.array 1) true ∧
      knots.heap.Bisimilar (.array 0) (.array 1) ∧
      Equates roomy 0 knots (.array 0) (.array 2) false ∧
      ¬knots.heap.Bisimilar (.array 0) (.array 2) ∧
      (∃ r, Equates roomy 0 knots (.array 1) (.array 0) r ∧ r = true) ∧
      ∃ r, Equates roomy 0 knots (.array 2) (.array 2) r ∧ r = true := by
  obtain ⟨terminates, -, decides, reflexive, symmetric, -⟩ := equates_iff_bisimilar roomy 0 knots
  have hFirst : Equates roomy 0 knots (.array 0) (.array 1) true := equates_iff.mpr (by decide)
  have hSecond : Equates roomy 0 knots (.array 0) (.array 2) false :=
    equates_iff.mpr (by decide)
  obtain ⟨r, hBack⟩ := terminates (.array 1) (.array 0) rfl
  obtain ⟨r', hSelf⟩ := terminates (.array 2) (.array 2) rfl
  refine ⟨hFirst, ?_, hSecond, ?_, ⟨r, hBack, ?_⟩, r', hSelf, ?_⟩
  · exact (decides _ _ _ (isClear_knots 0) (isClear_knots 1) hFirst).mp rfl
  · intro hSimilar
    exact nomatch (decides _ _ _ (isClear_knots 0) (isClear_knots 2) hSecond).mpr hSimilar
  · exact (symmetric _ _ _ _ (isClear_knots 0) (isClear_knots 1) hFirst hBack).symm
  · exact reflexive _ _ (isClear_knots 2) hSelf

end Eval

/-! ## Numbers -/

/-- Two numbers are equal as doubles, or they are one `nan` read twice. -/
def Value.SameNumber (a b : Value) : Prop :=
  (∃ x y, a.toFloat? = some x ∧ b.toFloat? = some y ∧ (x == y) = true) ∨
    ∃ i, a = .nan i ∧ b = .nan i

theorem Value.same_iff_sameNumber {a b : Value} (hLeft : a.toFloat?.isSome)
    (hRight : b.toFloat?.isSome) : a.same b = true ↔ a.SameNumber b := by
  obtain ⟨x, hx⟩ := Option.isSome_iff_exists.mp hLeft
  obtain ⟨y, hy⟩ := Option.isSome_iff_exists.mp hRight
  rw [Value.same_iff_of_numbers hx hy, Value.SameNumber]
  refine or_congr_left ⟨fun hEqual => ⟨x, y, hx, hy, hEqual⟩, ?_⟩
  rintro ⟨x', y', hx', hy', hEqual⟩
  obtain rfl := Option.some.inj (hx.symm.trans hx')
  obtain rfl := Option.some.inj (hy.symm.trans hy')
  exact hEqual

namespace Heap

variable {h : Heap} {met : Pairs} {room : Nat} {a b : Value} {i j : ArrayId}

/-- A value that is no array is compared by what it is. -/
theorem equalIn_of_not_array (hLeft : ∀ i, a ≠ .array i) :
    h.equalIn room met a b = some (a.same b, met) := by
  have hView := h.compared room met a b
  generalize h.equalIn room met a b = result at hView
  cases hView with
  | same => rfl
  | _ => exact absurd rfl (hLeft _)

theorem equalIn_of_number (hLeft : a.toFloat?.isSome) :
    h.equalIn room met a b = some (a.same b, met) := by
  refine equalIn_of_not_array ?_
  rintro i rfl
  cases hLeft

/-- Comparing numbers one by one meets no arrays. -/
theorem equalAll_of_numbers {vs ws : List Value} (hLeft : ∀ v ∈ vs, v.toFloat?.isSome)
    (hRight : ∀ w ∈ ws, w.toFloat?.isSome) :
    ∃ r, equalAll (h.equalIn room) met vs ws = some (r, met) ∧
      (r = true ↔ List.Forall₂ Value.SameNumber vs ws) := by
  induction vs generalizing ws with
  | nil =>
    cases ws with
    | nil => exact ⟨true, rfl, iff_of_true rfl .nil⟩
    | cons w ws => exact ⟨false, rfl, iff_of_false Bool.false_ne_true nofun⟩
  | cons v vs ih =>
    cases ws with
    | nil => exact ⟨false, rfl, iff_of_false Bool.false_ne_true nofun⟩
    | cons w ws =>
      have hHead : v.same w = true ↔ v.SameNumber w :=
        Value.same_iff_sameNumber (hLeft v List.mem_cons_self) (hRight w List.mem_cons_self)
      rw [equalAll, equalIn_of_number (hLeft v List.mem_cons_self)]
      cases hSame : v.same w with
      | true =>
        obtain ⟨r, hRest, hr⟩ := ih (fun u hu => hLeft u (List.mem_cons_of_mem _ hu))
          fun u hu => hRight u (List.mem_cons_of_mem _ hu)
        refine ⟨r, hRest, ?_⟩
        rw [List.forall₂_cons, hr, and_iff_right (hHead.mp hSame)]
      | false =>
        refine ⟨false, rfl, iff_of_false Bool.false_ne_true fun hAll => ?_⟩
        rw [hHead.mpr (List.forall₂_cons.mp hAll).1] at hSame
        cases hSame

/-- Arrays of numbers are equal if they are one array, or equal place by place. -/
theorem equal?_of_numbers {limit : Option Nat} (hRoom : limit ≠ some 0)
    (hLeft : ∀ v ∈ h.elements i, v.toFloat?.isSome)
    (hRight : ∀ v ∈ h.elements j, v.toFloat?.isSome) :
    ∃ r, h.equal? limit (.array i) (.array j) = some r ∧ (r = true ↔
      i = j ∨ List.Forall₂ Value.SameNumber (h.elements i).toList (h.elements j).toList) := by
  unfold equal?
  have hView := h.compared (limit.getD (h.arrays.size * h.arrays.size + 1)) [] (.array i)
    (.array j)
  generalize h.equalIn (limit.getD (h.arrays.size * h.arrays.size + 1)) [] (.array i)
    (.array j) = result at hView
  cases hView with
  | same hArrays =>
    obtain rfl := hArrays i j rfl rfl
    exact ⟨_, rfl, iff_of_true (beq_self_eq_true i) (.inl rfl)⟩
  | sizes hSizes =>
    refine ⟨false, rfl, iff_of_false Bool.false_ne_true ?_⟩
    rintro (rfl | hAll)
    · exact hSizes rfl
    · exact hSizes (by simpa using hAll.length_eq)
  | known hMet => cases hMet
  | full hNone =>
    cases limit with
    | none => exact absurd hNone (Nat.succ_ne_zero _)
    | some room => exact absurd (congrArg some hNone) hRoom
  | inside _ hDiffer _ _ hElements =>
    obtain ⟨r, hAll, hr⟩ := equalAll_of_numbers
      (fun v hv => hLeft v (Array.mem_toList_iff.mp hv))
      (fun v hv => hRight v (Array.mem_toList_iff.mp hv))
    rw [← hElements, hAll]
    exact ⟨r, rfl, hr.trans (or_iff_right hDiffer).symm⟩

end Heap

variable {cfg : Settings} {fuel depth : Nat} {env : Env} {l r : Expr} {span : Option Span}
  {m m₁ m₂ : Machine} {a b : Value}

/-- An expression that has a value was not one level too deep. -/
theorem isFull_eq_false_of_evaluate {e : Expr}
    (hValue : run cfg fuel (.evaluate depth env e) m = .ok a m₁) : cfg.isFull depth = false := by
  cases fuel with
  | zero => cases hValue
  | succ fuel =>
    rw [← Bool.not_eq_true]
    intro hFull
    change Step.evaluate cfg (run cfg fuel) depth env e m = _ at hValue
    rw [Step.evaluate, if_pos hFull] at hValue
    cases hValue

theorem room_ne_zero (hRoom : cfg.isFull depth = false) : cfg.room depth ≠ some 0 := by
  unfold Settings.isFull at hRoom
  unfold Settings.room
  cases hLimit : cfg.stackLimit with
  | none => exact nofun
  | some limit =>
    rw [hLimit] at hRoom
    have hBelow : depth < limit := Nat.lt_of_not_le (of_decide_eq_false hRoom)
    rw [Option.map_some, ne_eq, Option.some_inj]
    omega

theorem isFull_eq_false_of_succ (hRoom : cfg.isFull (depth + 1) = false) :
    cfg.isFull depth = false := by
  unfold Settings.isFull at hRoom ⊢
  cases hLimit : cfg.stackLimit with
  | none => rfl
  | some limit =>
    rw [hLimit] at hRoom
    have hBelow : depth + 1 < limit := Nat.lt_of_not_le (of_decide_eq_false hRoom)
    exact decide_eq_false (by omega)

/-- `==` answers what the comparison of the two values says. -/
theorem run_equal {e : Bool} (hLeft : run cfg fuel (.evaluate (depth + 1) env l) m = .ok a m₁)
    (hRight : run cfg fuel (.evaluate (depth + 1) env r) m₁ = .ok b m₂)
    (hAnswer : m₂.heap.equal? (cfg.room (depth + 1)) a b = some e) :
    run cfg (fuel + 1) (.evaluate depth env (.binary .equal l r span)) m = .ok (.bool e) m₂ := by
  have hRoom := isFull_eq_false_of_succ (isFull_eq_false_of_evaluate hLeft)
  have hOperands : Step.expr cfg (run cfg fuel) depth env (.binary .equal l r span) m =
      .ok (.bool e) m₂ := by
    change (run cfg fuel (.evaluate (depth + 1) env l) >>= fun v =>
      run cfg fuel (.evaluate (depth + 1) env r) >>= fun w =>
        Eval.binary cfg (depth + 1) .equal v w) m = _
    rw [Eval.bind_eq, hLeft]
    change (run cfg fuel (.evaluate (depth + 1) env r) >>= fun w =>
      Eval.binary cfg (depth + 1) .equal a w) m₁ = _
    rw [Eval.bind_eq, hRight]
    exact (Eval.equates_iff.mpr hAnswer).equal
  change Step.evaluate cfg (run cfg fuel) depth env (.binary .equal l r span) m = _
  rw [Step.evaluate, hRoom]
  change Eval.located _ (Step.expr cfg (run cfg fuel) depth env (.binary .equal l r span)) m = _
  unfold Eval.located
  rw [hOperands]

/-- When two expressions have values that are numbers, `==` says whether they are equal as doubles
or one `nan` read twice. When the values are arrays of numbers, it says whether they are one
array or as long as each other and equal in that sense place by place. -/
theorem run_equal_of_numbers
    (hLeft : run cfg fuel (.evaluate (depth + 1) env l) m = .ok a m₁)
    (hRight : run cfg fuel (.evaluate (depth + 1) env r) m₁ = .ok b m₂) :
    (∀ x y, a.toFloat? = some x → b.toFloat? = some y → ∃ e,
      run cfg (fuel + 1) (.evaluate depth env (.binary .equal l r span)) m = .ok (.bool e) m₂ ∧
      (e = true ↔ (x == y) = true ∨ ∃ i, a = .nan i ∧ b = .nan i)) ∧
    ∀ i j, a = .array i → b = .array j →
      (∀ v ∈ m₂.heap.elements i, v.toFloat?.isSome) →
      (∀ v ∈ m₂.heap.elements j, v.toFloat?.isSome) → ∃ e,
      run cfg (fuel + 1) (.evaluate depth env (.binary .equal l r span)) m = .ok (.bool e) m₂ ∧
      (e = true ↔ i = j ∨
        List.Forall₂ Value.SameNumber (m₂.heap.elements i).toList
          (m₂.heap.elements j).toList) := by
  constructor
  · intro x y hx hy
    have hNumber : a.toFloat?.isSome := by rw [hx]; rfl
    have hAnswer : m₂.heap.equal? (cfg.room (depth + 1)) a b = some (a.same b) := by
      rw [Heap.equal?, Heap.equalIn_of_number hNumber, Option.map_some]
    exact ⟨a.same b, run_equal hLeft hRight hAnswer, Value.same_iff_of_numbers hx hy⟩
  · rintro i j rfl rfl hNumbers hNumbers'
    have hRoom := room_ne_zero (isFull_eq_false_of_evaluate hLeft)
    obtain ⟨e, hAnswer, he⟩ := Heap.equal?_of_numbers hRoom hNumbers hNumbers'
    exact ⟨e, run_equal hLeft hRight hAnswer, he⟩

/-- A machine with a number `n` that is a `nan`, and two arrays of numbers that differ in the
`nan` that they hold. -/
def notNumbers : Machine :=
  let names := [("n", ⟨.nan 0, false⟩), ("a", ⟨.array 0, false⟩), ("b", ⟨.array 1, false⟩)]
  let arrays := #[#[.number 1, .nan 0], #[.number 1, .nan 1]]
  ⟨⟨#[names], arrays, #[], #[], 0, 2⟩, .ofLines [], #[], 0, 0⟩

/-- What stands for no number is equal to itself when it is read twice, and only then. -/
theorem run_equal_of_numbers_nan :
    (∃ e, run Eval.roomy 2 (.evaluate 0 ⟨0, []⟩
      (.binary .equal (.name ⟨"n", none⟩) (.name ⟨"n", none⟩) none)) notNumbers =
        .ok (.bool e) notNumbers ∧ e = true) ∧
    ∃ e, run Eval.roomy 2 (.evaluate 0 ⟨0, []⟩
      (.binary .equal (.name ⟨"a", none⟩) (.name ⟨"b", none⟩) none)) notNumbers =
        .ok (.bool e) notNumbers ∧ e = false := by
  have hRead : ∀ (name : String) (v : Value),
      (name, v) ∈ [("n", .nan 0), ("a", .array 0), ("b", .array 1)] →
      run Eval.roomy 1 (.evaluate 1 ⟨0, []⟩ (.name ⟨name, none⟩)) notNumbers =
        .ok v notNumbers := by
    simp only [List.mem_cons, List.not_mem_nil, or_false, Prod.mk.injEq]
    rintro name v (⟨rfl, rfl⟩ | ⟨rfl, rfl⟩ | ⟨rfl, rfl⟩) <;> rfl
  constructor
  · have hName := hRead "n" (.nan 0) (by simp)
    obtain ⟨e, hRun, he⟩ := (run_equal_of_numbers hName hName).1 _ _ rfl rfl
    exact ⟨e, hRun, he.mpr (.inr ⟨0, rfl, rfl⟩)⟩
  · obtain ⟨e, hRun, he⟩ := (run_equal_of_numbers (hRead "a" (.array 0) (by simp))
      (hRead "b" (.array 1) (by simp))).2 0 1 rfl rfl (by decide) (by decide)
    refine ⟨e, hRun, Bool.eq_false_iff.mpr fun hTrue => ?_⟩
    have hElements := (he.mp hTrue).resolve_left (by decide)
    have hSecond := (List.forall₂_cons.mp (List.forall₂_cons.mp hElements).2).1
    exact nomatch (Value.same_iff_sameNumber rfl rfl).mpr hSecond

end Tern
