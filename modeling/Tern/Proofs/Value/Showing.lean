import Tern.Value.Display
import Tern.Proofs.Decimal.ReadBack
import Tern.Proofs.Machine.Catching
import Tern.Proofs.Machine.Chains
import Tern.Proofs.Value.Bisimilarity

/-!
# What the text of a value shows

The text of a value cuts exactly the cycles. An array is written out with all of its elements
unless it is open already, that is, unless it is met again on the way down from itself. An array
that is merely shared is written out wherever it occurs: once it has been left it is no longer open.

So of a value without cycles the text says all there is to be found by going down, and values that
are equal have the same text. Numbers that are equal are, since the sign of zero is not written.
Classes are compared by their numbers, and a number stands for one class as long as a session lasts.

* `Heap.Shows`, `Heap.Full`: the text inside of some arrays, and the text without any cuts;
* `Heap.displaySeen`: the conversion with one set of arrays, entered and left on the way;
* `Heap.shows_iff`, `Heap.full_iff`: the texts that are shown are those that are made;
* `Heap.text_of_equal`: equal values without cycles have the same text;
* `text_cuts_cycles`: all of it together.
-/

namespace Tern

/-! ## Equal numbers -/

namespace Number

open Float.Model.UnpackedFloat in
theorem eq_of_unpack {x y : Float} (h : x.toModel.unpack = y.toModel.unpack) : x = y := by
  obtain ⟨⟨a, ha⟩⟩ := x
  obtain ⟨⟨b, hb⟩⟩ := y
  obtain rfl : a = b := UInt64.toBitVec_inj.mp ((unpack_inj_of_valid ha hb).mp h)
  rfl

theorem text_of_unpack_zero {x : Float} {s : Float.Model.UnpackedFloat.Sign}
    (h : x.toModel.unpack = .zero s) : text x = "0" := by
  cases s with
  | positive =>
    obtain rfl : x = 0.0 := eq_of_unpack (h.trans rfl)
    decide +kernel
  | negative =>
    obtain rfl : x = -0.0 := eq_of_unpack (h.trans rfl)
    decide +kernel

/-- Equal doubles have the same text. -/
theorem text_congr {x y : Float} (h : (x == y) = true) : text x = text y := by
  obtain ⟨-, hSame | ⟨s, t, hx, hy⟩⟩ := (beq_iff x y).mp h
  · rw [eq_of_unpack hSame]
  · rw [text_of_unpack_zero hx, text_of_unpack_zero hy]

end Number

/-- The values that have texts one by one. -/
theorem mapM_eq_some_iff {α β : Type} {f : α → Option β} {as : List α} {bs : List β} :
    as.mapM f = some bs ↔ List.Forall₂ (fun a b => f a = some b) as bs := by
  induction as generalizing bs with
  | nil => simp [eq_comm]
  | cons a as ih =>
    rw [List.mapM_cons, List.forall₂_cons_left_iff]
    constructor
    · intro h
      obtain ⟨b, hb, h⟩ := Option.bind_eq_some_iff.mp h
      obtain ⟨rest, hRest, h⟩ := Option.bind_eq_some_iff.mp h
      cases h
      exact ⟨b, rest, hb, ih.mp hRest, rfl⟩
    · rintro ⟨b, rest, hb, hRest, rfl⟩
      rw [hb, ih.mpr hRest]
      rfl

namespace Heap

/-! ## The texts to be shown -/

/-- The text of a value that is not an array. -/
def ownText? (h : Heap) : Value → Option String
  | .null => some "null"
  | .bool b => some (if b then "true" else "false")
  | .number x => some (Number.text x)
  | .nan _ => some "NaN"
  | .string s => some s
  | .func id => some ("<func " ++ h.funcName id ++ ">")
  | .bound id _ => some ("<func " ++ h.funcName id ++ ">")
  | .native f => some ("<native " ++ f.name ++ ">")
  | .cls c => some ("<class " ++ c.name ++ ">")
  | .object id => some ("<" ++ (h.object id).cls.name ++ " instance>")
  | .array _ => none

/-- The text of an array, from the texts of its elements. -/
def arrayText (texts : List String) : String := "[" ++ ", ".intercalate texts ++ "]"

/-- The text that shows a value inside the arrays of `path`: an array that is one of them is cut,
any other is shown with its elements, inside of it. -/
inductive Shows (h : Heap) : List ArrayId → Value → String → Prop
  | own {path : List ArrayId} {v : Value} {text : String} (hOwn : h.ownText? v = some text) :
      Shows h path v text
  | cut {path : List ArrayId} {i : ArrayId} (hOpen : i ∈ path) : Shows h path (.array i) "[...]"
  | whole {path : List ArrayId} {i : ArrayId} {texts : List String} (hNew : i ∉ path)
      (hLength : (h.elements i).toList.length = texts.length)
      (hElements : ∀ {w text}, (w, text) ∈ (h.elements i).toList.zip texts →
        Shows h (i :: path) w text) :
      Shows h path (.array i) (arrayText texts)

/-- The text that shows a value with nothing cut. -/
inductive Full (h : Heap) : Value → String → Prop
  | own {v : Value} {text : String} (hOwn : h.ownText? v = some text) : Full h v text
  | whole {i : ArrayId} {texts : List String}
      (hLength : (h.elements i).toList.length = texts.length)
      (hElements : ∀ {w text}, (w, text) ∈ (h.elements i).toList.zip texts → Full h w text) :
      Full h (.array i) (arrayText texts)

/-- Going down from `v` into one array after the other, those of `path`, one gets to `w`. -/
inductive Occurs (h : Heap) (v : Value) : List ArrayId → Value → Prop
  | here : Occurs h v [] v
  | element {path : List ArrayId} {i : ArrayId} {w : Value} (hArray : Occurs h v path (.array i))
      (hElement : w ∈ (h.elements i).toList) : Occurs h v (i :: path) w

/-- No array that can be reached from the value can be reached from an element of itself. -/
def IsAcyclic (h : Heap) (v : Value) : Prop :=
  ∀ i, h.Reaches v (.array i) → ∀ w ∈ (h.elements i).toList, ¬h.Reaches w (.array i)

/-- None of the arrays can be reached from the value. -/
def Aside (h : Heap) (path : List ArrayId) (v : Value) : Prop :=
  ∀ i ∈ path, ¬h.Reaches v (.array i)

/-- Of the classes reached from the values, those of one number have one name. -/
def OneName (h : Heap) (v w : Value) : Prop :=
  ∀ c d, h.Reaches v (.cls c) → h.Reaches w (.cls d) → c.decl.id = d.decl.id → c.name = d.name

variable {h : Heap} {room : Nat} {path : List ArrayId} {v w u : Value} {text other : String}
  {i n : ArrayId} {R : Value → Value → Prop} {limit : Option Nat}

theorem Reaches.trans (hFirst : h.Reaches v w) (hSecond : h.Reaches w u) : h.Reaches v u := by
  induction hFirst with
  | here => exact hSecond
  | element hElement _ ih => exact .element hElement (ih hSecond)

theorem IsAcyclic.element (hAcyclic : h.IsAcyclic (.array i)) (hw : w ∈ (h.elements i).toList) :
    h.IsAcyclic w :=
  fun j hj => hAcyclic j (.element hw hj)

theorem OneName.element {j : ArrayId} (hNames : h.OneName (.array i) (.array j))
    (hv : v ∈ (h.elements i).toList) (hw : w ∈ (h.elements j).toList) : h.OneName v w :=
  fun c d hc hd => hNames c d (.element hv hc) (.element hw hd)

theorem aside_nil (h : Heap) (v : Value) : h.Aside [] v := fun _ hi => absurd hi List.not_mem_nil

/-- What is inside of an array without cycles stays aside of it. -/
theorem Aside.element (hAside : h.Aside path (.array i)) (hAcyclic : h.IsAcyclic (.array i))
    (hw : w ∈ (h.elements i).toList) : h.Aside (i :: path) w := by
  intro j hj hReaches
  rcases List.mem_cons.mp hj with rfl | hj
  · exact hAcyclic j (.here _) w hw hReaches
  · exact hAside j hj (.element hw hReaches)

/-- A value without cycles does not lead back to the arrays that one went through to get there. -/
theorem Occurs.aside (hOccurs : h.Occurs v path w) (hAcyclic : h.IsAcyclic w) :
    h.Aside path w := by
  have hBelow : ∀ i ∈ path, ∃ u ∈ (h.elements i).toList, h.Reaches u w := by
    clear hAcyclic
    induction hOccurs with
    | here => exact fun _ hi => absurd hi List.not_mem_nil
    | @element path i w _ hElement ih =>
      intro j hj
      rcases List.mem_cons.mp hj with rfl | hj
      · exact ⟨w, hElement, .here w⟩
      · obtain ⟨u, hu, hReaches⟩ := ih j hj
        exact ⟨u, hu, hReaches.trans (.element hElement (.here w))⟩
  intro i hi hReaches
  obtain ⟨u, hu, hDown⟩ := hBelow i hi
  exact hAcyclic i hReaches u hu (hDown.trans hReaches)

/-- An array is without cycles if from there on all arrays have elements of smaller numbers only. -/
theorem isAcyclic_of_descending {n : Nat}
    (hDown : ∀ i ≤ n, ∀ j : Nat, Value.array j ∈ (h.elements i).toList → j < i) :
    h.IsAcyclic (.array n) := by
  have hBound : ∀ {v w}, h.Reaches v w →
      ∀ i : Nat, v = .array i → i ≤ n → ∀ j : Nat, w = .array j → j ≤ i := by
    intro v w hReaches
    induction hReaches with
    | here =>
      rintro i rfl - j hj
      cases hj
      exact Nat.le_refl _
    | @element k v w hElement hInside ih =>
      rintro i hi hLe j rfl
      cases hi
      cases v with
      | array l =>
        have hl := hDown k hLe l hElement
        exact Nat.le_trans (ih l rfl (Nat.le_trans (Nat.le_of_lt hl) hLe) j rfl) (Nat.le_of_lt hl)
      | _ => cases hInside
  intro i hi w hw hReaches
  cases w with
  | array j =>
    have hLe : i ≤ n := hBound hi n rfl (Nat.le_refl _) i rfl
    have hj : j < i := hDown i hLe j hw
    have hBack : i ≤ j := hBound hReaches j rfl (Nat.le_trans (Nat.le_of_lt hj) hLe) i rfl
    exact Nat.not_le_of_lt hj hBack
  | _ => cases hReaches

/-! ## The texts that are made -/

theorem displayIn_of_ownText (hOwn : h.ownText? v = some text) :
    h.displayIn room path v = some text := by
  cases v with
  | array => cases hOwn
  | _ => cases room <;> exact hOwn

/-- The ways in which a text is made. -/
inductive Displayed (h : Heap) (room : Nat) (path : List ArrayId) : Value → String → Prop
  | own {v : Value} {text : String} (hOwn : h.ownText? v = some text) :
      Displayed h room path v text
  | cut {i : ArrayId} (hOpen : i ∈ path) : Displayed h room path (.array i) "[...]"
  | whole {room' : Nat} {i : ArrayId} {texts : List String} (hRoom : room = room' + 1)
      (hNew : i ∉ path)
      (hElements : List.Forall₂ (fun w t => h.displayIn room' (i :: path) w = some t)
        (h.elements i).toList texts) :
      Displayed h room path (.array i) (arrayText texts)

theorem displayed (hText : h.displayIn room path v = some text) :
    h.Displayed room path v text := by
  cases v with
  | array i =>
    unfold displayIn at hText
    split at hText
    · next hOpen =>
      cases hText
      exact .cut (by simpa using hOpen)
    · next hNew =>
      cases room with
      | zero => cases hText
      | succ room =>
        dsimp only at hText
        split at hText
        · next texts hTexts =>
          cases hText
          exact .whole rfl (by simpa using hNew) (mapM_eq_some_iff.mp hTexts)
        · cases hText
  | _ => cases room <;> exact .own hText

/-- A text that is made shows the value. -/
theorem shows_of_displayIn (hText : h.displayIn room path v = some text) :
    h.Shows path v text := by
  induction room using Nat.strongRecOn generalizing path v text with
  | ind room ih =>
    cases displayed hText with
    | own hOwn => exact .own hOwn
    | cut hOpen => exact .cut hOpen
    | whole hRoom hNew hElements =>
      obtain ⟨hLength, hAll⟩ := List.forall₂_iff_zip.mp hElements
      exact .whole hNew hLength fun hMem => ih _ (by omega) (hAll hMem)

/-- Lists are the same if what goes with each item is. -/
theorem eq_of_forall₂ {α β : Type} {P Q : α → β → Prop} {as : List α} {bs cs : List β}
    (hFirst : List.Forall₂ P as bs) (hSecond : List.Forall₂ Q as cs)
    (hUnique : ∀ a ∈ as, ∀ b c, P a b → Q a c → b = c) : bs = cs := by
  induction hFirst generalizing cs with
  | nil =>
    cases hSecond
    rfl
  | @cons a b as bs hHead _ ih =>
    obtain _ | ⟨hHead', hRest'⟩ := hSecond
    rw [hUnique a List.mem_cons_self _ _ hHead hHead',
      ih hRest' fun a' ha' => hUnique a' (List.mem_cons_of_mem _ ha')]

/-- Only the text that is made shows the value. -/
theorem displayIn_unique (hText : h.displayIn room path v = some text)
    (hShows : h.Shows path v other) : text = other := by
  induction room using Nat.strongRecOn generalizing path v text other with
  | ind room ih =>
    cases hShows with
    | own hOwn => exact Option.some.inj (hText.symm.trans (displayIn_of_ownText hOwn))
    | cut hOpen =>
      cases displayed hText with
      | own hOwn => cases hOwn
      | cut => rfl
      | whole _ hNew => exact absurd hOpen hNew
    | whole hNew hLength hElements =>
      cases displayed hText with
      | own hOwn => cases hOwn
      | cut hOpen => exact absurd hOpen hNew
      | whole hRoom _ hAll =>
        have hTexts := eq_of_forall₂ hAll (List.forall₂_iff_zip.mpr ⟨hLength, hElements⟩)
          fun w _ t t' ht ht' => ih _ (by omega) ht ht'
        rw [hTexts]

/-- The text without a limit is the one that shows the value. -/
theorem display?_iff : h.display? none v = some text ↔ h.Shows [] v text := by
  refine ⟨shows_of_displayIn, fun hShows => ?_⟩
  obtain ⟨made, hMade⟩ := h.exists_display? v
  rw [hMade, displayIn_unique hMade hShows]

theorem exists_displayIn (h : Heap) (path : List ArrayId) (v : Value) :
    ∃ text, h.displayIn h.unbounded path v = some text := by
  have hCard : (h.closed path).card ≤ h.arrays.size :=
    (Finset.card_le_card Finset.sdiff_subset).trans_eq (Finset.card_range _)
  exact Option.isSome_iff_exists.mp (displayIn_isSome (Nat.lt_succ_of_le hCard))

/-! ## Nothing is cut in a value without cycles -/

theorem full_of_displayIn (hText : h.displayIn room path v = some text) (hAcyclic : h.IsAcyclic v)
    (hAside : h.Aside path v) : h.Full v text := by
  induction room using Nat.strongRecOn generalizing path v text with
  | ind room ih =>
    cases displayed hText with
    | own hOwn => exact .own hOwn
    | cut hOpen => exact absurd (.here _) (hAside _ hOpen)
    | whole hRoom hNew hElements =>
      obtain ⟨hLength, hAll⟩ := List.forall₂_iff_zip.mp hElements
      refine .whole hLength fun {w t} hMem => ?_
      have hw := (List.of_mem_zip hMem).1
      exact ih _ (by omega) (hAll hMem) (hAcyclic.element hw) (hAside.element hAcyclic hw)

theorem displayIn_unique_full (hText : h.displayIn room path v = some text)
    (hAcyclic : h.IsAcyclic v) (hAside : h.Aside path v) (hFull : h.Full v other) :
    text = other := by
  induction room using Nat.strongRecOn generalizing path v text other with
  | ind room ih =>
    cases hFull with
    | own hOwn => exact Option.some.inj (hText.symm.trans (displayIn_of_ownText hOwn))
    | whole hLength hElements =>
      cases displayed hText with
      | own hOwn => cases hOwn
      | cut hOpen => exact absurd (.here _) (hAside _ hOpen)
      | whole hRoom _ hAll =>
        have hTexts := eq_of_forall₂ hAll (List.forall₂_iff_zip.mpr ⟨hLength, hElements⟩)
          fun w hw t t' ht ht' =>
            ih _ (by omega) ht (hAcyclic.element hw) (hAside.element hAcyclic hw) ht'
        rw [hTexts]

/-- A value without cycles is shown in full, inside of any arrays to which it does not lead back. -/
theorem shows_iff_full (hAcyclic : h.IsAcyclic v) (hAside : h.Aside path v) :
    h.Shows path v text ↔ h.Full v text := by
  obtain ⟨made, hMade⟩ := h.exists_displayIn path v
  constructor
  · intro hShows
    rw [← displayIn_unique hMade hShows]
    exact full_of_displayIn hMade hAcyclic hAside
  · intro hFull
    rw [← displayIn_unique_full hMade hAcyclic hAside hFull]
    exact shows_of_displayIn hMade

/-! ## Equal values -/

/-- Of what is alike, the texts are the same, but for the texts of elements. -/
theorem Alike.ownText?_eq (hAlike : h.Alike R v w) (hNames : h.OneName v w)
    (hOwn : h.ownText? v = some text) : h.ownText? w = some text := by
  cases hAlike with
  | @number x y p q hLeft hRight hEqual =>
    cases v with
    | number x =>
      obtain rfl : x = p := Option.some.inj hLeft
      cases w with
      | number y =>
        obtain rfl : y = q := Option.some.inj hRight
        rw [← hOwn, ownText?, ownText?, Number.text_congr hEqual]
      | nan j =>
        obtain rfl : 0.0 / 0.0 = q := Option.some.inj hRight
        rw [Number.beq_nan] at hEqual
        cases hEqual
      | _ => cases hRight
    | nan i =>
      obtain rfl : 0.0 / 0.0 = p := Option.some.inj hLeft
      rw [Number.nan_beq] at hEqual
      cases hEqual
    | _ => cases hLeft
  | native hName => rw [← hOwn, ownText?, ownText?, hName]
  | cls hId => rw [← hOwn, ownText?, ownText?, hNames _ _ (.here _) (.here _) hId]
  | array => cases hOwn
  | _ => exact hOwn

/-- What is related to a value without cycles has the text of that value. -/
theorem full_of_related (hAlike : ∀ x y, R x y → h.Alike R x y) (hRelated : R v w)
    (hText : h.displayIn room path v = some text) (hAcyclic : h.IsAcyclic v)
    (hAside : h.Aside path v) (hNames : h.OneName v w) : h.Full w text := by
  induction room using Nat.strongRecOn generalizing path v w text with
  | ind room ih =>
    have hHere := hAlike v w hRelated
    cases displayed hText with
    | own hOwn => exact .own (hHere.ownText?_eq hNames hOwn)
    | cut hOpen => exact absurd (.here _) (hAside _ hOpen)
    | @whole room' i texts hRoom _ hElements =>
      cases hHere with
      | number hLeft => cases hLeft
      | @array _ j hPairs =>
        have hInside : List.Forall₂ (fun u u' => u ∈ (h.elements i).toList ∧ R u u')
            (h.elements i).toList (h.elements j).toList :=
          (List.forall₂_and_left _ _).mpr ⟨fun u hu => hu, hPairs⟩
        obtain ⟨hLength, hAll⟩ := List.forall₂_iff_zip.mp (forall₂_comp hInside.flip hElements)
        refine .whole hLength fun {u' t} hMem => ?_
        obtain ⟨u, ⟨hu, hPair⟩, hMade⟩ := hAll hMem
        exact ih _ (by omega) hPair hMade (hAcyclic.element hu) (hAside.element hAcyclic hu)
          (hNames.element hu (List.of_mem_zip hMem).1)

/-- Equal values without cycles have the same text. -/
theorem text_of_equal (hLeft : h.IsAcyclic v) (hRight : h.IsAcyclic w) (hClear : h.IsClear v)
    (hNames : h.OneName v w) (hEqual : h.equal? limit v w = some true) :
    h.display? none v = h.display? none w := by
  obtain ⟨R, hRelated, hAlike⟩ := bisimilar_of_equal? hClear hEqual
  obtain ⟨text, hText⟩ := h.exists_display? v
  have hFull := full_of_related hAlike hRelated hText hLeft (aside_nil h v) hNames
  rw [hText, display?_iff.mpr ((shows_iff_full hRight (aside_nil h w)).mpr hFull)]

/-! ## One set of open arrays -/

/-- Converts values one by one, each with the arrays that the one before leaves. -/
def displayEach (display : List ArrayId → Value → Option (String × List ArrayId)) :
    List ArrayId → List Value → Option (List String × List ArrayId)
  | seen, [] => some ([], seen)
  | seen, v :: vs =>
    match display seen v with
    | some (text, seen) =>
      (displayEach display seen vs).map fun (texts, seen) => (text :: texts, seen)
    | none => none

/-- The conversion with one set of arrays for the whole of it: an array is added when it is
entered and taken out when it is left. -/
def displaySeen (h : Heap) : Nat → List ArrayId → Value → Option (String × List ArrayId)
  | room, seen, .array i =>
    if seen.contains i then some ("[...]", seen)
    else
      match room with
      | 0 => none
      | room + 1 =>
        (displayEach (displaySeen h room) (seen.insert i) (h.elements i).toList).map
          fun (texts, seen) => (arrayText texts, seen.erase i)
  | _, seen, v => (h.ownText? v).map (·, seen)

theorem displayEach_eq {display : List ArrayId → Value → Option (String × List ArrayId)}
    {show? : Value → Option String} (seen : List ArrayId) (vs : List Value)
    (hDisplay : ∀ v, display seen v = (show? v).map (·, seen)) :
    displayEach display seen vs = (vs.mapM show?).map (·, seen) := by
  induction vs with
  | nil => rfl
  | cons v vs ih =>
    rw [displayEach, hDisplay, List.mapM_cons]
    cases show? v with
    | none => rfl
    | some text =>
      dsimp only [Option.map_some]
      rw [ih]
      cases vs.mapM show? with
      | none => rfl
      | some texts => rfl

/-- What is added to the set is taken out again, so at any time it is the path. -/
theorem displaySeen_eq (h : Heap) (room : Nat) (seen : List ArrayId) (v : Value) :
    h.displaySeen room seen v = (h.displayIn room seen v).map (·, seen) := by
  induction room using Nat.strongRecOn generalizing seen v with
  | ind room ih =>
    cases v with
    | array i =>
      unfold displaySeen displayIn
      split
      · rfl
      · next hNew =>
        cases room with
        | zero => rfl
        | succ room =>
          have hEach := displayEach_eq (i :: seen) (h.elements i).toList
            fun w => ih room (Nat.lt_succ_self room) (i :: seen) w
          dsimp only
          rw [List.insert_of_not_mem (by simpa using hNew), hEach]
          cases (h.elements i).toList.mapM (h.displayIn room (i :: seen)) with
          | none => rfl
          | some texts => simp [arrayText]
    | _ => cases room <;> rfl

end Heap

/-! ## Sessions -/

/-- On the heaps of a session a number stands for one class, so classes of one number have one
name. -/
theorem Session.oneName_of_meets {s : Session} {steps : List Step} {before : Register}
    {x : Machine} (hHost : s.settings.host.Honest) (hBefore : s.machine.heap.Registered before)
    (hMeets : s.Meets steps x) {v w : Value} (hLeft : x.heap.Has v) (hRight : x.heap.Has w) :
    x.heap.OneName v w := by
  have hRegistered := Session.registered_register hHost hBefore hMeets
  have hHas : ∀ {v w}, x.heap.Has v → x.heap.Reaches v w → x.heap.Has w := by
    intro v w hv hReaches
    induction hReaches with
    | here => exact hv
    | element hElement _ ih => exact ih (.element hElement)
  intro c d hc hd hId
  have hc := (hRegistered c (hHas hLeft hc) c c.self_mem_lineage).registered
  have hd := (hRegistered d (hHas hRight hd) d d.self_mem_lineage).registered
  rw [← hc, hId, hd]

/-! ## All of it -/

open Heap

/-- Every value has a text. It is the one that shows the value by writing every array with all of
its elements, unless it is open on the way there; with less room there is this text or none. The
set of open arrays may as well be one for the whole conversion, since it comes back as it was. An
array without cycles is written in full at each place where it is met. Two values without cycles
and without what is not a number have the same text if they are equal, provided that classes of one
number have one name, as they do in sessions (`Session.oneName_of_meets`). -/
theorem text_cuts_cycles (h : Heap) (v : Value) :
    (∃ text, (∀ other, h.Shows [] v other ↔ other = text) ∧ h.display? none v = some text ∧
      ∀ limit, h.display? limit v = none ∨ h.display? limit v = some text) ∧
    (∀ room seen, h.displaySeen room seen v = (h.displayIn room seen v).map (·, seen)) ∧
    (∀ path w, h.Occurs v path w → h.IsAcyclic w →
      ∀ text, h.Shows path w text ↔ h.Full w text) ∧
    ∀ w limit, h.IsAcyclic v → h.IsAcyclic w → h.IsClear v → h.IsClear w → h.OneName v w →
      h.equal? limit v w = some true → h.display? none v = h.display? none w := by
  refine ⟨?text, fun room seen => displaySeen_eq h room seen v,
    fun path w hOccurs hAcyclic text => shows_iff_full hAcyclic (hOccurs.aside hAcyclic),
    fun w limit hLeft hRight hClear _ hNames hEqual =>
      text_of_equal hLeft hRight hClear hNames hEqual⟩
  case text =>
    obtain ⟨text, hText⟩ := h.exists_display? v
    have hOnly : ∀ other, h.Shows [] v other → other = text := fun other hShows =>
      (displayIn_unique hText hShows).symm
    refine ⟨text, fun other => ⟨hOnly other, ?_⟩, hText, fun limit => ?_⟩
    · rintro rfl
      exact shows_of_displayIn hText
    · cases hLimited : h.display? limit v with
      | none => exact .inl rfl
      | some other => exact .inr (congrArg some (hOnly other (shows_of_displayIn hLimited)))

/-- Arrays that share an array, an array that contains itself, and equal ones that differ. -/
def sharing : Heap :=
  { Heap.empty with arrays := #[#[.number 1.0], #[.number 1.0], #[.array 0, .array 0],
      #[.array 0, .array 1], #[.array 4, .array 0]] }

theorem isAcyclic_sharing (n : Nat) (hn : n ≤ 3) : sharing.IsAcyclic (.array n) := by
  refine isAcyclic_of_descending fun i hi j hj => ?_
  have hLe : i ≤ 3 := Nat.le_trans hi hn
  interval_cases i
  · simp [sharing, elements] at hj
  · simp [sharing, elements] at hj
  · obtain rfl : j = 0 := by simpa [sharing, elements] using hj
    decide
  · obtain rfl | rfl : j = 0 ∨ j = 1 := by simpa [sharing, elements] using hj
    · decide
    · decide

/-- The shared array is written twice, the array that contains itself is cut, and the pair of one
array has the text of the pair of two equal ones. -/
theorem text_cuts_cycles_sharing :
    sharing.display? none (.array 4) = some "[[...], [1]]" ∧
      sharing.Shows [] (.array 4) "[[...], [1]]" ∧
      sharing.Full (.array 2) "[[1], [1]]" ∧
      sharing.display? none (.array 2) = sharing.display? none (.array 3) := by
  have hCut : sharing.display? none (.array 4) = some "[[...], [1]]" := by decide +kernel
  have hWhole : sharing.display? none (.array 2) = some "[[1], [1]]" := by decide +kernel
  have hClear : ∀ n, sharing.IsClear (.array n) := fun n =>
    isClear_of_arrays (by decide +kernel) rfl
  have hNames : sharing.OneName (.array 2) (.array 3) := by
    intro c d hc
    have hNone : ∀ c', Value.cls c ≠ .cls c' :=
      hc.of_arrays (P := fun w => ∀ c', w ≠ .cls c') (by simp [sharing, Heap.empty])
        fun c' => Value.noConfusion
    exact absurd rfl (hNone c)
  obtain ⟨⟨text, hShows, hText, -⟩, -⟩ := text_cuts_cycles sharing (.array 4)
  obtain ⟨⟨text', hShows', hText', -⟩, -, hFull, hEqual⟩ := text_cuts_cycles sharing (.array 2)
  refine ⟨hCut, (hShows _).mpr ?_, ?_, ?_⟩
  · exact Option.some.inj (hCut.symm.trans hText)
  · refine (hFull [] _ .here (isAcyclic_sharing 2 (by decide)) _).mp ((hShows' _).mpr ?_)
    exact Option.some.inj (hWhole.symm.trans hText')
  · exact hEqual (.array 3) none (isAcyclic_sharing 2 (by decide)) (isAcyclic_sharing 3 (by decide))
      (hClear 2) (hClear 3) hNames (by decide +kernel)

end Tern
