import Mathlib.Data.Finset.Prod
import Mathlib.Data.List.Forall2
import Tern.Value.Equality

/-!
# What equality decides

Two values are bisimilar if some relation holds between them that never relates what can be told
apart: it relates only what is alike, and elements of related arrays are related place by place.
Arrays may be shared and may contain themselves, so bisimilarity is not defined by going down
into them; one has to give the relation.

Equality looks for such a relation. The pairs of arrays that it has met are never taken back,
even those that were only assumed to be equal. That is right because the first difference ends
the whole comparison: if it comes to a positive end, then every pair met has been compared, and
the pairs met together are the relation that was looked for. It comes to an end because there
are only finitely many pairs.

A computation without a number as its result is not equal to itself, though an array that
contains it is. So all this is about values from which none can be reached.

* `Heap.Bisimilar`: some relation holds between two values that keeps apart what differs;
* `Heap.IsClear`: no `nan` can be reached from a value;
* `Heap.exists_equal?`: without a limit, equality has an answer;
* `Heap.bisimilar_of_equal?`, `Heap.equal?_of_bisimilar`: the answer is whether the values are
  bisimilar;
* `Heap.Bisimilar.refl`, `Heap.Bisimilar.symm`, `Heap.Bisimilar.trans`.
-/

namespace Tern

/-! ## Equality of doubles -/

namespace Number

open Float.Model (UnpackedFloat)

variable {x y z : Float}

/-- Finite doubles of one sign are compared by exponent and mantissa. -/
theorem parts_eq_iff (e f : Int) (n k : Nat) :
    (compare e f).then (compare n k) = .eq ↔ e = f ∧ n = k := by
  rw [Ordering.then_eq_eq, Std.LawfulEqCmp.compare_eq_iff_eq, Std.LawfulEqCmp.compare_eq_iff_eq]

theorem compare_self {a : UnpackedFloat} (hNumber : a ≠ .notANumber) :
    a.compare a = some .eq := by
  cases a with
  | notANumber => exact absurd rfl hNumber
  | infinity s => cases s <;> rfl
  | zero s => rfl
  | finite s n e hn =>
    have hParts := (parts_eq_iff e e n n).mpr ⟨rfl, rfl⟩
    cases s with
    | positive => exact congrArg some hParts
    | negative => exact congrArg (fun o => some o.swap) hParts

/-- Doubles are equal if they are the same or both zero, and numbers at all. -/
theorem compare_eq_iff (a b : UnpackedFloat) : a.compare b = some .eq ↔
    a ≠ .notANumber ∧ (a = b ∨ ∃ s t, a = .zero s ∧ b = .zero t) := by
  constructor
  · intro hEqual
    cases a with
    | notANumber => cases hEqual
    | infinity s =>
      refine ⟨UnpackedFloat.noConfusion, .inl ?_⟩
      cases b with
      | infinity t => cases s <;> cases t <;> first | rfl | cases hEqual
      | _ => cases s <;> cases hEqual
    | zero s =>
      refine ⟨UnpackedFloat.noConfusion, .inr ?_⟩
      cases b with
      | zero t => exact ⟨s, t, rfl, rfl⟩
      | notANumber => cases hEqual
      | infinity t | finite t => cases t <;> cases hEqual
    | finite s n e hn =>
      refine ⟨UnpackedFloat.noConfusion, .inl ?_⟩
      cases b with
      | finite t k f hk =>
        have hParts : s = t ∧ (compare e f).then (compare n k) = .eq := by
          cases s <;> cases t
          · exact ⟨rfl, Ordering.swap_eq_eq.mp (Option.some.inj hEqual)⟩
          · cases hEqual
          · cases hEqual
          · exact ⟨rfl, Option.some.inj hEqual⟩
        obtain ⟨rfl, hOrder⟩ := hParts
        obtain ⟨rfl, rfl⟩ := (parts_eq_iff e f n k).mp hOrder
        rfl
      | notANumber => cases s <;> cases hEqual
      | infinity t | zero t => cases s <;> cases t <;> cases hEqual
  · rintro ⟨hNumber, rfl | ⟨s, t, rfl, rfl⟩⟩
    · exact compare_self hNumber
    · rfl

theorem beq_iff (x y : Float) : (x == y) = true ↔
    x.toModel.unpack ≠ .notANumber ∧ (x.toModel.unpack = y.toModel.unpack ∨
      ∃ s t, x.toModel.unpack = .zero s ∧ y.toModel.unpack = .zero t) := by
  change (x.toModel.unpack.compare y.toModel.unpack == some .eq) = true ↔ _
  rw [beq_iff_eq, compare_eq_iff]

theorem isNaN_iff (x : Float) : x.isNaN = true ↔ x.toModel.unpack = .notANumber := by
  change x.toModel.unpack.isNaN = true ↔ _
  cases x.toModel.unpack with
  | notANumber => exact iff_of_true rfl rfl
  | _ => exact iff_of_false Bool.false_ne_true UnpackedFloat.noConfusion

theorem beq_self (h : x.isNaN = false) : (x == x) = true := by
  rw [beq_iff]
  refine ⟨fun hNaN => ?_, .inl rfl⟩
  rw [(isNaN_iff x).mpr hNaN] at h
  cases h

theorem beq_symm (h : (x == y) = true) : (y == x) = true := by
  rw [beq_iff] at h ⊢
  obtain ⟨hNumber, hSame | ⟨s, t, hx, hy⟩⟩ := h
  · exact ⟨hSame ▸ hNumber, .inl hSame.symm⟩
  · refine ⟨fun hNaN => ?_, .inr ⟨t, s, hy, hx⟩⟩
    rw [hy] at hNaN
    cases hNaN

theorem beq_trans (hFirst : (x == y) = true) (hSecond : (y == z) = true) :
    (x == z) = true := by
  rw [beq_iff] at hFirst hSecond ⊢
  obtain ⟨hNumber, hSame | ⟨s, t, hx, hy⟩⟩ := hFirst
  · rw [hSame]
    exact hSecond
  · refine ⟨hNumber, .inr ⟨s, ?_⟩⟩
    obtain ⟨-, hSame' | ⟨t', u, -, hz⟩⟩ := hSecond
    · exact ⟨t, hx, hSame' ▸ hy⟩
    · exact ⟨u, hx, hz⟩

theorem not_beq_of_isNaN (h : x.isNaN = true) : (x == y) = false := by
  rw [← Bool.not_eq_true, beq_iff]
  exact fun hEqual => hEqual.1 ((isNaN_iff x).mp h)

theorem nan_beq (x : Float) : ((0.0 / 0.0 : Float) == x) = false :=
  not_beq_of_isNaN (by decide)

theorem beq_nan (x : Float) : (x == (0.0 / 0.0 : Float)) = false := by
  rw [← Bool.not_eq_true]
  intro hEqual
  exact absurd (beq_symm hEqual) (by rw [nan_beq x]; exact Bool.false_ne_true)

end Number

namespace Value

/-- A value that stands for no number although it is of their type. -/
def isNaN (v : Value) : Bool := v.toFloat?.any Float.isNaN

/-- Numbers are the same if they are equal as doubles; of what stands for no number, each is
the same as itself. -/
theorem same_iff_of_numbers {a b : Value} {x y : Float} (hLeft : a.toFloat? = some x)
    (hRight : b.toFloat? = some y) :
    a.same b = true ↔ (x == y) = true ∨ ∃ i, a = .nan i ∧ b = .nan i := by
  cases a with
  | number x' =>
    obtain rfl : x' = x := Option.some.inj hLeft
    cases b with
    | number y' =>
      obtain rfl : y' = y := Option.some.inj hRight
      simp only [same, reduceCtorEq, false_and, exists_false, or_false]
    | nan j =>
      obtain rfl : 0.0 / 0.0 = y := Option.some.inj hRight
      simp only [same, Number.beq_nan, reduceCtorEq, false_and, exists_false, or_false]
    | _ => cases hRight
  | nan i =>
    obtain rfl : 0.0 / 0.0 = x := Option.some.inj hLeft
    cases b with
    | number y' => simp only [same, Number.nan_beq, reduceCtorEq, and_false, exists_false, or_false]
    | nan j =>
      rw [Number.nan_beq, same, beq_iff_eq]
      simp only [nan.injEq, Bool.false_eq_true, false_or, exists_eq_left', eq_comm]
    | _ => cases hRight
  | _ => cases hLeft

theorem same_self {a : Value} (hNumber : a.isNaN = false) : a.same a = true := by
  cases a with
  | null => rfl
  | number x => exact Number.beq_self hNumber
  | bool b => exact beq_self_eq_true b
  | nan i => exact beq_self_eq_true i
  | string s => exact beq_self_eq_true s
  | array i => exact beq_self_eq_true i
  | func f => exact beq_self_eq_true f
  | bound f self => simp [same]
  | native f => exact beq_self_eq_true f.name
  | cls c => exact beq_self_eq_true c.decl.id
  | object o => exact beq_self_eq_true o

end Value

namespace Heap

/-! ## Bisimilarity -/

/-- Two values that show no difference, if related elements do not. Functions, natives, classes
and instances are what they are by their number or name. -/
inductive Alike (h : Heap) (R : Value → Value → Prop) : Value → Value → Prop
  | null : Alike h R .null .null
  | bool (b : Bool) : Alike h R (.bool b) (.bool b)
  | number {x y : Value} {p q : Float} (hLeft : x.toFloat? = some p)
      (hRight : y.toFloat? = some q) (hEqual : (p == q) = true) : Alike h R x y
  | string (s : String) : Alike h R (.string s) (.string s)
  | array {i j : ArrayId} (hElements : List.Forall₂ R (h.elements i).toList (h.elements j).toList) :
      Alike h R (.array i) (.array j)
  | func (f : FuncId) : Alike h R (.func f) (.func f)
  | bound (f : FuncId) (self : ObjectId) : Alike h R (.bound f self) (.bound f self)
  | native {f g : Native} (hName : f.name = g.name) : Alike h R (.native f) (.native g)
  | cls {c d : Class} (hId : c.decl.id = d.decl.id) : Alike h R (.cls c) (.cls d)
  | object (o : ObjectId) : Alike h R (.object o) (.object o)

/-- Some relation holds between the values that relates only what is alike. -/
def Bisimilar (h : Heap) (a b : Value) : Prop :=
  ∃ R : Value → Value → Prop, R a b ∧ ∀ x y, R x y → h.Alike R x y

/-- A value is what is asked about itself, an element of it, or inside of one. -/
inductive Reaches (h : Heap) : Value → Value → Prop
  | here (v : Value) : Reaches h v v
  | element {i : ArrayId} {v w : Value} (hElement : v ∈ (h.elements i).toList)
      (hInside : Reaches h v w) : Reaches h (.array i) w

/-- No `nan` can be reached from the value. -/
def IsClear (h : Heap) (v : Value) : Prop := ∀ w, h.Reaches v w → w.isNaN = false

variable {h : Heap} {R S : Value → Value → Prop} {x y z a b c : Value} {i j : ArrayId}

theorem IsClear.isNaN_eq (hClear : h.IsClear x) : x.isNaN = false := hClear x (.here x)

theorem IsClear.element (hClear : h.IsClear (.array i)) (hx : x ∈ (h.elements i).toList) :
    h.IsClear x :=
  fun w hw => hClear w (.element hx hw)

theorem forall₂_comp {α β γ : Type} {P : α → β → Prop} {Q : β → γ → Prop} {as : List α}
    {bs : List β} {cs : List γ} (hFirst : List.Forall₂ P as bs) (hSecond : List.Forall₂ Q bs cs) :
    List.Forall₂ (Relation.Comp P Q) as cs := by
  induction hFirst generalizing cs with
  | nil =>
    cases hSecond
    exact .nil
  | cons hHead _ ih =>
    obtain _ | ⟨hHead', hRest'⟩ := hSecond
    exact .cons ⟨_, hHead, hHead'⟩ (ih hRest')

theorem elements_eq_empty_or_mem (h : Heap) (i : ArrayId) :
    h.elements i = #[] ∨ h.elements i ∈ h.arrays := by
  unfold elements
  by_cases hi : i < h.arrays.size
  · exact .inr (by simp [Array.getD_eq_getD_getElem?, hi])
  · exact .inl (by simp [Array.getD_eq_getD_getElem?, hi])

/-- What holds of a value and of all that arrays hold, holds of all that can be reached. -/
theorem Reaches.of_arrays {P : Value → Prop} (hArrays : ∀ es ∈ h.arrays, ∀ v ∈ es, P v)
    (hx : P x) (hReaches : h.Reaches x y) : P y := by
  induction hReaches with
  | here => exact hx
  | @element i v w hElement _ ih =>
    rcases h.elements_eq_empty_or_mem i with hEmpty | hMem
    · rw [hEmpty] at hElement
      cases hElement
    · exact ih (hArrays _ hMem v (Array.mem_toList_iff.mp hElement))

/-- In a heap whose arrays hold no `nan` there is none to be reached. -/
theorem isClear_of_arrays (hArrays : ∀ es ∈ h.arrays, ∀ v ∈ es, v.isNaN = false)
    (hx : x.isNaN = false) : h.IsClear x :=
  fun _ hReaches => hReaches.of_arrays hArrays hx

namespace Alike

theorem mono (hRS : ∀ x y, R x y → S x y) (hAlike : h.Alike R x y) : h.Alike S x y := by
  cases hAlike with
  | null => exact .null
  | bool b => exact .bool b
  | number hLeft hRight hEqual => exact .number hLeft hRight hEqual
  | string s => exact .string s
  | array hElements => exact .array (hElements.imp hRS)
  | func f => exact .func f
  | bound f self => exact .bound f self
  | native hName => exact .native hName
  | cls hId => exact .cls hId
  | object o => exact .object o

theorem symm (hAlike : h.Alike R x y) : h.Alike (flip R) y x := by
  cases hAlike with
  | null => exact .null
  | bool b => exact .bool b
  | number hLeft hRight hEqual => exact .number hRight hLeft (Number.beq_symm hEqual)
  | string s => exact .string s
  | array hElements => exact .array hElements.flip
  | func f => exact .func f
  | bound f self => exact .bound f self
  | native hName => exact .native hName.symm
  | cls hId => exact .cls hId.symm
  | object o => exact .object o

/-- What is alike to a common third is alike by the composed relations. -/
theorem trans (hFirst : h.Alike R x y) (hSecond : h.Alike S y z) :
    h.Alike (Relation.Comp R S) x z := by
  cases hFirst with
  | number hLeft hMiddle hEqual =>
    cases hSecond with
    | number hMiddle' hRight hEqual' =>
      obtain rfl : _ = _ := Option.some.inj (hMiddle.symm.trans hMiddle')
      exact .number hLeft hRight (Number.beq_trans hEqual hEqual')
    | _ => cases hMiddle
  | null => cases hSecond with
    | null => exact .null
    | number hMiddle => cases hMiddle
  | bool b => cases hSecond with
    | bool => exact .bool b
    | number hMiddle => cases hMiddle
  | string s => cases hSecond with
    | string => exact .string s
    | number hMiddle => cases hMiddle
  | array hElements => cases hSecond with
    | array hElements' => exact .array (forall₂_comp hElements hElements')
    | number hMiddle => cases hMiddle
  | func f => cases hSecond with
    | func => exact .func f
    | number hMiddle => cases hMiddle
  | bound f self => cases hSecond with
    | bound => exact .bound f self
    | number hMiddle => cases hMiddle
  | native hName => cases hSecond with
    | native hName' => exact .native (hName.trans hName')
    | number hMiddle => cases hMiddle
  | cls hId => cases hSecond with
    | cls hId' => exact .cls (hId.trans hId')
    | number hMiddle => cases hMiddle
  | object o => cases hSecond with
    | object => exact .object o
    | number hMiddle => cases hMiddle

/-- Values that are the same are alike, if the elements of an array are related to
themselves. -/
theorem of_same (hSame : x.same y = true) (hNumber : x.isNaN = false)
    (hElements : ∀ i, x = .array i → ∀ v ∈ (h.elements i).toList, R v v) : h.Alike R x y := by
  cases x with
  | null => cases y with
    | null => exact .null
    | _ => cases hSame
  | bool b => cases y with
    | bool b' => exact eq_of_beq hSame ▸ .bool b
    | _ => cases hSame
  | number p => cases y with
    | number q => exact .number rfl rfl hSame
    | _ => cases hSame
  | nan i => cases hNumber
  | string s => cases y with
    | string s' => exact eq_of_beq hSame ▸ .string s
    | _ => cases hSame
  | array i => cases y with
    | array j => exact eq_of_beq hSame ▸ .array (List.forall₂_same.mpr (hElements i rfl))
    | _ => cases hSame
  | func f => cases y with
    | func f' => exact eq_of_beq hSame ▸ .func f
    | _ => cases hSame
  | bound f self => cases y with
    | bound f' self' =>
      obtain ⟨hFunc, hSelf⟩ := Bool.and_eq_true_iff.mp hSame
      exact eq_of_beq hFunc ▸ eq_of_beq hSelf ▸ .bound f self
    | _ => cases hSame
  | native f => cases y with
    | native f' => exact .native (eq_of_beq hSame)
    | _ => cases hSame
  | cls c => cases y with
    | cls c' => exact .cls (eq_of_beq hSame)
    | _ => cases hSame
  | object o => cases y with
    | object o' => exact eq_of_beq hSame ▸ .object o
    | _ => cases hSame

end Alike

namespace Bisimilar

theorem refl (hClear : h.IsClear x) : h.Bisimilar x x := by
  refine ⟨fun v w => v.same w = true ∧ h.IsClear v, ⟨Value.same_self hClear.isNaN_eq, hClear⟩, ?_⟩
  rintro v w ⟨hSame, hv⟩
  refine Alike.of_same hSame hv.isNaN_eq fun i hi u hu => ?_
  subst hi
  exact ⟨Value.same_self (hv.element hu).isNaN_eq, hv.element hu⟩

theorem symm (hSimilar : h.Bisimilar x y) : h.Bisimilar y x := by
  obtain ⟨R, hxy, hAlike⟩ := hSimilar
  exact ⟨flip R, hxy, fun v w hvw => (hAlike w v hvw).symm⟩

theorem trans (hFirst : h.Bisimilar x y) (hSecond : h.Bisimilar y z) : h.Bisimilar x z := by
  obtain ⟨R, hxy, hAlike⟩ := hFirst
  obtain ⟨S, hyz, hAlike'⟩ := hSecond
  refine ⟨Relation.Comp R S, ⟨y, hxy, hyz⟩, ?_⟩
  rintro v w ⟨u, hvu, huw⟩
  exact (hAlike v u hvu).trans (hAlike' u w huw)

end Bisimilar

/-! ## How two values are compared -/

variable {met met' met'' : Pairs} {room : Nat} {r : Bool} {limit : Option Nat}
  {result : Option (Bool × Pairs)} {vs ws : List Value}
  {compare : Pairs → Value → Value → Option (Bool × Pairs)}

/-- The ways in which a comparison can go. Only different arrays of one size that have not been
met together take a level of the room there is. -/
inductive Compared (h : Heap) (room : Nat) (met : Pairs) :
    Value → Value → Option (Bool × Pairs) → Prop
  | same {x y : Value} (hArrays : ∀ i j, x = .array i → y = .array j → i = j) :
      Compared h room met x y (some (x.same y, met))
  | sizes {i j : ArrayId} (hSizes : (h.elements i).size ≠ (h.elements j).size) :
      Compared h room met (.array i) (.array j) (some (false, met))
  | known {i j : ArrayId} (hMet : (i, j) ∈ met) :
      Compared h room met (.array i) (.array j) (some (true, met))
  | full {i j : ArrayId} (hRoom : room = 0) : Compared h room met (.array i) (.array j) none
  | inside {room' : Nat} {i j : ArrayId} {result : Option (Bool × Pairs)}
      (hRoom : room = room' + 1) (hDiffer : i ≠ j)
      (hSizes : (h.elements i).size = (h.elements j).size) (hNew : (i, j) ∉ met)
      (hElements : equalAll (h.equalIn room') ((i, j) :: met) (h.elements i).toList
        (h.elements j).toList = result) :
      Compared h room met (.array i) (.array j) result

theorem compared (h : Heap) (room : Nat) (met : Pairs) (x y : Value) :
    h.Compared room met x y (h.equalIn room met x y) := by
  unfold equalIn
  split
  case h_1 i j =>
    split_ifs with hSame hSizes hMet
    · have hTrue : true = (Value.array i).same (.array j) := (beq_iff_eq.mpr hSame).symm
      rw [hTrue]
      refine .same fun i' j' hi hj => ?_
      cases hi
      cases hj
      exact hSame
    · exact .sizes hSizes
    · obtain ⟨⟨i', j'⟩, hMem, hPair⟩ := List.any_eq_true.mp hMet
      obtain ⟨hi, hj⟩ := Bool.and_eq_true_iff.mp hPair
      obtain rfl : i' = i := eq_of_beq hi
      obtain rfl : j' = j := eq_of_beq hj
      exact .known hMem
    · have hNew : (i, j) ∉ met := fun hMem =>
        hMet (List.any_eq_true.mpr ⟨(i, j), hMem, by simp⟩)
      cases room with
      | zero => exact .full rfl
      | succ room => exact .inside rfl hSame (not_not.mp hSizes) hNew rfl
  case h_2 hNot => exact .same fun i j hi hj => absurd hj (hNot i j hi)

/-! ## There is an answer -/

/-- The pairs of arrays that have not been met. -/
def unmet (h : Heap) (met : Pairs) : Finset (ArrayId × ArrayId) :=
  (Finset.range h.arrays.size ×ˢ Finset.range h.arrays.size) \ met.toFinset

theorem card_unmet_le (hMore : met ⊆ met') : (h.unmet met').card ≤ (h.unmet met).card := by
  refine Finset.card_le_card (Finset.sdiff_subset_sdiff (Finset.Subset.refl _) fun p hp => ?_)
  exact List.mem_toFinset.mpr (hMore (List.mem_toFinset.mp hp))

theorem card_unmet_cons_lt (hi : i < h.arrays.size) (hj : j < h.arrays.size)
    (hNew : (i, j) ∉ met) : (h.unmet ((i, j) :: met)).card < (h.unmet met).card := by
  refine Finset.card_lt_card (Finset.ssubset_iff_of_subset ?_ |>.mpr ⟨(i, j), ?_, ?_⟩)
  · exact Finset.sdiff_subset_sdiff (Finset.Subset.refl _) fun p hp =>
      List.mem_toFinset.mpr (List.mem_cons_of_mem _ (List.mem_toFinset.mp hp))
  · simp [unmet, hi, hj, hNew]
  · simp [unmet]

theorem card_unmet_nil (h : Heap) : (h.unmet []).card = h.arrays.size * h.arrays.size := by
  simp [unmet]

theorem lt_size_of_elements (hPos : 0 < (h.elements i).size) : i < h.arrays.size := by
  refine Nat.lt_of_not_le fun hi => ?_
  simp [elements, Array.getD_eq_getD_getElem?, hi] at hPos

theorem equalAll_answers (vs ws : List Value)
    (hCompare : ∀ met', met ⊆ met' → ∀ v w, ∃ r met'', compare met' v w = some (r, met'') ∧
      met' ⊆ met'') :
    ∃ r met', equalAll compare met vs ws = some (r, met') ∧ met ⊆ met' := by
  induction vs generalizing met ws with
  | nil =>
    cases ws with
    | nil => exact ⟨true, met, rfl, List.Subset.refl _⟩
    | cons w ws => exact ⟨false, met, rfl, List.Subset.refl _⟩
  | cons v vs ih =>
    cases ws with
    | nil => exact ⟨false, met, rfl, List.Subset.refl _⟩
    | cons w ws =>
      obtain ⟨r, met', hHead, hMore⟩ := hCompare met (List.Subset.refl _) v w
      cases r with
      | false => exact ⟨false, met', by rw [equalAll, hHead], hMore⟩
      | true =>
        obtain ⟨r, met'', hRest, hMore'⟩ := @ih met' ws
          fun m hm => hCompare m (List.Subset.trans hMore hm)
        refine ⟨r, met'', ?_, List.Subset.trans hMore hMore'⟩
        rw [equalAll, hHead]
        exact hRest

/-- Each level takes a pair that has not been met, and no pair is taken back. -/
theorem equalIn_answers (hRoom : (h.unmet met).card < room) :
    ∃ r met', h.equalIn room met x y = some (r, met') ∧ met ⊆ met' := by
  induction room using Nat.strongRecOn generalizing met x y with
  | ind room ih =>
    have hView := h.compared room met x y
    generalize hResult : h.equalIn room met x y = result at hView
    cases hView with
    | same => exact ⟨_, met, rfl, List.Subset.refl _⟩
    | sizes => exact ⟨_, met, rfl, List.Subset.refl _⟩
    | known => exact ⟨_, met, rfl, List.Subset.refl _⟩
    | full hNone => omega
    | @inside room' i j _ hSome _ hSizes hNew hElements =>
      rw [← hElements]
      rcases Nat.eq_zero_or_pos (h.elements i).size with hEmpty | hPos
      · -- Arrays that do not exist count as empty; nothing in them is compared.
        have hLeft : (h.elements i).toList = [] := by simpa using hEmpty
        have hRight : (h.elements j).toList = [] := by simpa using hSizes.symm.trans hEmpty
        rw [hLeft, hRight]
        exact ⟨true, _, rfl, List.subset_cons_self _ _⟩
      · have hFewer := card_unmet_cons_lt (lt_size_of_elements hPos)
          (lt_size_of_elements (hSizes ▸ hPos)) hNew
        have hLess : (h.unmet ((i, j) :: met)).card < room' := by omega
        obtain ⟨r, met', hAll, hMore⟩ := equalAll_answers (h.elements i).toList
          (h.elements j).toList fun m hm v w =>
            @ih room' (by omega) v w m ((card_unmet_le hm).trans_lt hLess)
        exact ⟨r, met', hAll, List.Subset.trans (List.subset_cons_self _ _) hMore⟩

/-- Without a limit, equality has an answer. -/
theorem exists_equal? (h : Heap) (a b : Value) : ∃ r, h.equal? none a b = some r := by
  have hRoom : (h.unmet []).card < h.arrays.size * h.arrays.size + 1 := by
    rw [card_unmet_nil]
    exact Nat.lt_succ_self _
  obtain ⟨r, met, hAnswer, -⟩ := @equalIn_answers h a b [] _ hRoom
  exact ⟨r, by rw [equal?, Option.getD_none, hAnswer]; rfl⟩

/-! ## What is bisimilar is found equal -/

/-- Values that are alike are the same, unless they are different arrays. -/
theorem Alike.same (hAlike : h.Alike R x y)
    (hArrays : ∀ i j, x = .array i → y = .array j → i = j) : x.same y = true := by
  cases hAlike with
  | null => rfl
  | number hLeft hRight hEqual => exact (Value.same_iff_of_numbers hLeft hRight).mpr (.inl hEqual)
  | array => exact beq_iff_eq.mpr (hArrays _ _ rfl rfl)
  | native hName => exact beq_iff_eq.mpr hName
  | cls hId => exact beq_iff_eq.mpr hId
  | bool b => exact beq_self_eq_true b
  | string s => exact beq_self_eq_true s
  | func f => exact beq_self_eq_true f
  | object o => exact beq_self_eq_true o
  | bound f self => simp [Value.same]

theorem equalAll_true_of_related
    (hCompare : ∀ met v w, R v w → ∀ r met', compare met v w = some (r, met') → r = true)
    (hRelated : List.Forall₂ R vs ws) (hAnswer : equalAll compare met vs ws = some (r, met')) :
    r = true := by
  induction hRelated generalizing met with
  | nil =>
    cases hAnswer
    rfl
  | @cons v w vs ws hHead _ ih =>
    rw [equalAll] at hAnswer
    cases hResult : compare met v w with
    | none =>
      rw [hResult] at hAnswer
      cases hAnswer
    | some answer =>
      obtain ⟨r', met''⟩ := answer
      obtain rfl := hCompare met v w hHead r' met'' hResult
      rw [hResult] at hAnswer
      exact ih hAnswer

theorem equalIn_true_of_related (hAlike : ∀ x y, R x y → h.Alike R x y) (hRelated : R x y)
    (hAnswer : h.equalIn room met x y = some (r, met')) : r = true := by
  induction room using Nat.strongRecOn generalizing met met' r x y with
  | ind room ih =>
    have hView := h.compared room met x y
    rw [hAnswer] at hView
    have hHere := hAlike x y hRelated
    cases hView with
    | same hArrays => exact hHere.same hArrays
    | sizes hSizes =>
      cases hHere with
      | array hElements => exact absurd (by simpa using hElements.length_eq) hSizes
      | number hLeft => cases hLeft
    | known => rfl
    | inside hSome _ _ _ hElements =>
      cases hHere with
      | array hAll =>
        exact equalAll_true_of_related (fun m v w hvw r m' hResult =>
          ih _ (by omega) hvw hResult) hAll hElements
      | number hLeft => cases hLeft

/-! ## What is found equal is bisimilar -/

/-- Values that are the same, or arrays that have been met together. -/
def Linked (met : Pairs) (x y : Value) : Prop :=
  x.same y = true ∨ ∃ i j, x = .array i ∧ y = .array j ∧ (i, j) ∈ met

/-- More pairs have been met, and what was met in between has been compared. -/
structure Settled (h : Heap) (met met' : Pairs) : Prop where
  more : met ⊆ met'
  compared : ∀ p ∈ met', p ∈ met ∨
    List.Forall₂ (Linked met') (h.elements p.1).toList (h.elements p.2).toList

theorem Linked.mono (hMore : met ⊆ met') (hLinked : Linked met x y) : Linked met' x y :=
  hLinked.imp_right fun ⟨i, j, hi, hj, hMet⟩ => ⟨i, j, hi, hj, hMore hMet⟩

theorem Settled.refl (h : Heap) (met : Pairs) : h.Settled met met :=
  ⟨List.Subset.refl _, fun _ => .inl⟩

theorem Settled.trans (hFirst : h.Settled met met') (hSecond : h.Settled met' met'') :
    h.Settled met met'' := by
  refine ⟨List.Subset.trans hFirst.more hSecond.more, fun p hp => ?_⟩
  rcases hSecond.compared p hp with hBefore | hCompared
  · exact (hFirst.compared p hBefore).imp_right fun hAll =>
      hAll.imp fun _ _ => Linked.mono hSecond.more
  · exact .inr hCompared

theorem equalAll_settled
    (hCompare : ∀ met met' v w, compare met v w = some (true, met') →
      h.Settled met met' ∧ Linked met' v w)
    (hAnswer : equalAll compare met vs ws = some (true, met')) :
    h.Settled met met' ∧ List.Forall₂ (Linked met') vs ws := by
  induction vs generalizing met ws with
  | nil =>
    cases ws with
    | nil =>
      cases hAnswer
      exact ⟨.refl h _, .nil⟩
    | cons w ws => cases hAnswer
  | cons v vs ih =>
    cases ws with
    | nil => cases hAnswer
    | cons w ws =>
      rw [equalAll] at hAnswer
      split at hAnswer
      case h_1 m hHead =>
        obtain ⟨hFirst, hLinked⟩ := hCompare met m v w hHead
        obtain ⟨hRest, hAll⟩ := ih hAnswer
        exact ⟨hFirst.trans hRest, .cons (hLinked.mono hRest.more) hAll⟩
      case h_2 hNot => exact absurd hAnswer (hNot met')

/-- The pair at hand is settled as soon as its elements have been compared. -/
theorem Settled.of_elements (hInside : h.Settled ((i, j) :: met) met')
    (hElements : List.Forall₂ (Linked met') (h.elements i).toList (h.elements j).toList) :
    h.Settled met met' := by
  refine ⟨fun p hp => hInside.more (List.mem_cons_of_mem _ hp), fun p hp => ?_⟩
  rcases hInside.compared p hp with hBefore | hCompared
  · rcases List.mem_cons.mp hBefore with rfl | hBefore
    · exact .inr hElements
    · exact .inl hBefore
  · exact .inr hCompared

theorem equalIn_settled (hAnswer : h.equalIn room met x y = some (true, met')) :
    h.Settled met met' ∧ Linked met' x y := by
  induction room using Nat.strongRecOn generalizing met met' x y with
  | ind room ih =>
    have hView := h.compared room met x y
    rw [hAnswer] at hView
    generalize hTrue : true = r at hView
    cases hView with
    | same => exact ⟨.refl h met, .inl hTrue.symm⟩
    | sizes => cases hTrue
    | known hMet => exact ⟨.refl h met, .inr ⟨_, _, rfl, rfl, hMet⟩⟩
    | inside hSome _ _ _ hElements =>
      subst hTrue
      obtain ⟨hInside, hAll⟩ := equalAll_settled (fun m m' v w => ih _ (by omega)) hElements
      exact ⟨hInside.of_elements hAll, .inr ⟨_, _, rfl, rfl, hInside.more List.mem_cons_self⟩⟩

/-- The pairs that have been met, together with what is the same, are the relation. -/
theorem bisimilar_of_equal? (hClear : h.IsClear a) (hEqual : h.equal? limit a b = some true) :
    h.Bisimilar a b := by
  obtain ⟨⟨r, met⟩, hAnswer, hTrue⟩ := Option.map_eq_some_iff.mp hEqual
  obtain rfl : r = true := hTrue
  obtain ⟨hSettled, hLinked⟩ := equalIn_settled hAnswer
  refine ⟨fun v w => h.IsClear v ∧ Linked met v w, ⟨hClear, hLinked⟩, ?_⟩
  rintro v w ⟨hv, hSame | ⟨i, j, rfl, rfl, hMet⟩⟩
  · refine .of_same hSame hv.isNaN_eq fun i hi u hu => ?_
    subst hi
    exact ⟨hv.element hu, .inl (Value.same_self (hv.element hu).isNaN_eq)⟩
  · have hAll := (hSettled.compared (i, j) hMet).resolve_left List.not_mem_nil
    exact .array (List.forall₂_and_left _ _ |>.mpr ⟨fun u hu => hv.element hu, hAll⟩)

theorem equal?_of_bisimilar (hSimilar : h.Bisimilar a b) (hAnswer : h.equal? limit a b = some r) :
    r = true := by
  obtain ⟨R, hab, hAlike⟩ := hSimilar
  obtain ⟨⟨r', met⟩, hResult, hr⟩ := Option.map_eq_some_iff.mp hAnswer
  obtain rfl : r' = r := hr
  exact equalIn_true_of_related hAlike hab hResult

end Heap
end Tern
