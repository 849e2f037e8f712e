import Tern.Proofs.Machine.Script

/-!
# The course of a run

A run comes by machines one after another: the one it starts from, those its parts come by, and
the one it leaves behind. Which of two parts a step gets to first can be told by breaking it off
at the second: it has then been to the first already.

* `Comes`: the machines that a run comes by;
* `Sooner`: which of two parts of a step is first;
* `Before`: the order in which a run comes by its machines;
* `Before.total`: of any two machines of a run one is before the other;
* `Discipline.Lawful.grows_of_before`: a discipline is kept from each machine of a run to every
  later one.
-/

namespace Tern

/-! ## Machines in order -/

/-- The run of `t` from `m` comes by the machine. -/
inductive Comes (cfg : Settings) : Nat → Task → Machine → Machine → Prop where
  | start {fuel : Nat} {t : Task} {m : Machine} : Comes cfg fuel t m m
  | stop {fuel : Nat} {t : Task} {m : Machine} : Comes cfg fuel t m ((run cfg fuel t).final m)
  | part {fuel : Nat} {t t' : Task} {m m' x : Machine} (need : Needs cfg (run cfg fuel) t m t' m')
      (inside : Comes cfg fuel t' m' x) : Comes cfg (fuel + 1) t m x

/-- The step that does `t` from `m` needs both parts, and has been to the first when it is broken
off at the second. -/
structure Sooner (cfg : Settings) (inner : Worker) (t : Task) (m : Machine) (t₁ : Task)
    (m₁ : Machine) (t₂ : Task) (m₂ : Machine) : Prop where
  apart : ¬(t₁ = t₂ ∧ m₁ = m₂)
  second : Needs cfg inner t m t₂ m₂
  first : ∀ message, Needs cfg (inner.interrupt t₂ m₂ message) t m t₁ m₁

/-- The run of `t` from `m` comes by the first machine no later than by the second. -/
inductive Before (cfg : Settings) : Nat → Task → Machine → Machine → Machine → Prop where
  | start {fuel : Nat} {t : Task} {m y : Machine} (comes : Comes cfg fuel t m y) :
      Before cfg fuel t m m y
  | stop {fuel : Nat} {t : Task} {m x : Machine} (comes : Comes cfg fuel t m x) :
      Before cfg fuel t m x ((run cfg fuel t).final m)
  | part {fuel : Nat} {t t' : Task} {m m' x y : Machine}
      (need : Needs cfg (run cfg fuel) t m t' m') (inside : Before cfg fuel t' m' x y) :
      Before cfg (fuel + 1) t m x y
  | across {fuel : Nat} {t t₁ t₂ : Task} {m m₁ m₂ x y : Machine}
      (sooner : Sooner cfg (run cfg fuel) t m t₁ m₁ t₂ m₂) (first : Comes cfg fuel t₁ m₁ x)
      (second : Comes cfg fuel t₂ m₂ y) : Before cfg (fuel + 1) t m x y

/-! ## Workers that break off -/

theorem Worker.interrupt_comm {inner : Worker} {t₁ t₂ : Task} {m₁ m₂ : Machine}
    (hApart : ¬(t₁ = t₂ ∧ m₁ = m₂)) (message₁ message₂ : String) :
    (inner.interrupt t₁ m₁ message₁).interrupt t₂ m₂ message₂ =
      (inner.interrupt t₂ m₂ message₂).interrupt t₁ m₁ message₁ := by
  funext u k
  unfold Worker.interrupt
  by_cases h₁ : u = t₁ ∧ k = m₁
  · have h₂ : ¬(u = t₂ ∧ k = m₂) := fun h => hApart ⟨h₁.1.symm.trans h.1, h₁.2.symm.trans h.2⟩
    simp only [if_pos h₁, if_neg h₂]
  · simp only [if_neg h₁]

namespace BreaksAt

variable {D : Discipline} {Asks : Task → Prop} {α β : Type} {f : Worker → Eval α}
  {g : α → Worker → Eval β} {inner : Worker} {m m' k k' : Machine} {t t' : Task}

theorem bind_left (h : BreaksAt f inner m t k) :
    BreaksAt (fun inner => f inner >>= (g · inner)) inner m t k :=
  fun message => (h message).imp fun _ => Eval.bind_failure

theorem bind_right {a : α} (first : Scripted D Asks f) (hFirst : f inner m = .ok a m')
    (h : BreaksAt (g a) inner m' t k) :
    BreaksAt (fun inner => f inner >>= (g · inner)) inner m t k :=
  Scripted.breaksAt_bind_of_after first.breaksAt_of_ne hFirst h

/-- A part that is needed up to where the worker breaks off is needed. -/
theorem of_interrupt {message : String} (hScript : Scripted D Asks f)
    (h : BreaksAt f (inner.interrupt t' k' message) m t k) : BreaksAt f inner m t k := by
  induction hScript generalizing m with
  | own => exact absurd h (not_of_const fun _ => rfl)
  | ask =>
    obtain ⟨rfl, rfl⟩ := h.eq_of_ask
    exact fun message => ⟨_, Worker.interrupt_self inner _ _ message⟩
  | @bind _ _ f g first after ihFirst ihAfter =>
    rcases h.of_bind first with hFirst | ⟨-, a, m', hOk, hAfter⟩
    · exact bind_left (ihFirst hFirst)
    · have hWhole : ¬BreaksAt f inner m t' k' := by
        intro hBroken
        obtain ⟨m'', hEnd⟩ := hBroken message
        rw [hOk] at hEnd
        cases hEnd
      rw [first.eq_of_not_breaksAt hWhole] at hOk
      exact bind_right first hOk (ihAfter a hAfter)
  | located span _ ih => exact fun message =>
      (ih h.of_located message).imp fun _ => Eval.located_failure span
  | guarded span _ ih => exact fun message =>
      (ih h.of_guarded message).imp fun _ => Eval.guarded_failure span
  | deeper _ ih =>
    intro message
    obtain ⟨m', hEnd⟩ := ih h.of_withCallDepth message
    exact ⟨_, Eval.withCallDepth_failure hEnd⟩

/-- A part does not go away when a worker breaks off where it is not asked. -/
theorem interrupt (hScript : Scripted D Asks f) (hApart : ¬(t = t' ∧ k = k'))
    (h : BreaksAt f inner m t k) (hNot : ¬BreaksAt f inner m t' k') (message' : String) :
    BreaksAt f (inner.interrupt t' k' message') m t k := by
  intro message
  have hNot' : ¬BreaksAt f (inner.interrupt t k message) m t' k' :=
    fun hBreaks => hNot (of_interrupt hScript hBreaks)
  rw [← Worker.interrupt_comm hApart, hScript.eq_of_not_breaksAt hNot']
  exact h message

/-- Of two parts that are needed, one is needed up to where the worker breaks off at the
other. -/
theorem total {t₁ t₂ : Task} {m₁ m₂ : Machine} (hScript : Scripted D Asks f)
    (hApart : ¬(t₁ = t₂ ∧ m₁ = m₂)) (h₁ : BreaksAt f inner m t₁ m₁)
    (h₂ : BreaksAt f inner m t₂ m₂) :
    (∀ message, BreaksAt f (inner.interrupt t₂ m₂ message) m t₁ m₁) ∨
      ∀ message, BreaksAt f (inner.interrupt t₁ m₁ message) m t₂ m₂ := by
  have hApart' : ¬(t₂ = t₁ ∧ m₂ = m₁) := fun h => hApart ⟨h.1.symm, h.2.symm⟩
  induction hScript generalizing m with
  | own => exact absurd h₁ (not_of_const fun _ => rfl)
  | ask =>
    obtain ⟨rfl, rfl⟩ := h₁.eq_of_ask
    obtain ⟨rfl, rfl⟩ := h₂.eq_of_ask
    exact absurd ⟨rfl, rfl⟩ hApart
  | @bind _ _ f g first after ihFirst ihAfter =>
    by_cases hFirst₁ : BreaksAt f inner m t₁ m₁
    · by_cases hFirst₂ : BreaksAt f inner m t₂ m₂
      · exact (ihFirst hFirst₁ hFirst₂).imp (fun h message => bind_left (h message))
          fun h message => bind_left (h message)
      · exact .inl fun message => bind_left (hFirst₁.interrupt first hApart hFirst₂ message)
    · by_cases hFirst₂ : BreaksAt f inner m t₂ m₂
      · exact .inr fun message => bind_left (hFirst₂.interrupt first hApart' hFirst₁ message)
      · obtain ⟨hSame₁, a, m', hOk, hAfter₁⟩ := (h₁.of_bind first).resolve_left hFirst₁
        obtain ⟨hSame₂, a', m'', hOk', hAfter₂⟩ := (h₂.of_bind first).resolve_left hFirst₂
        cases hOk.symm.trans hOk'
        exact (ihAfter a hAfter₁ hAfter₂).imp
          (fun h message => bind_right first ((hSame₂ message).trans hOk) (h message))
          fun h message => bind_right first ((hSame₁ message).trans hOk) (h message)
  | located span _ ih =>
    refine (ih h₁.of_located h₂.of_located).imp (fun h message message' => ?_)
      fun h message message' => ?_
    · exact (h message message').imp fun _ => Eval.located_failure span
    · exact (h message message').imp fun _ => Eval.located_failure span
  | guarded span _ ih =>
    refine (ih h₁.of_guarded h₂.of_guarded).imp (fun h message message' => ?_)
      fun h message message' => ?_
    · exact (h message message').imp fun _ => Eval.guarded_failure span
    · exact (h message message').imp fun _ => Eval.guarded_failure span
  | deeper _ ih =>
    refine (ih h₁.of_withCallDepth h₂.of_withCallDepth).imp (fun h message message' => ?_)
      fun h message message' => ?_
    · obtain ⟨m', hEnd⟩ := h message message'
      exact ⟨_, Eval.withCallDepth_failure hEnd⟩
    · obtain ⟨m', hEnd⟩ := h message message'
      exact ⟨_, Eval.withCallDepth_failure hEnd⟩

end BreaksAt

/-! ## The order is total -/

section

variable {cfg : Settings} {inner : Worker} {t t₁ t₂ : Task} {m m₁ m₂ x y : Machine}

/-- Of two different parts of a step one is sooner. -/
theorem Sooner.total (hApart : ¬(t₁ = t₂ ∧ m₁ = m₂)) (h₁ : Needs cfg inner t m t₁ m₁)
    (h₂ : Needs cfg inner t m t₂ m₂) :
    Sooner cfg inner t m t₁ m₁ t₂ m₂ ∨ Sooner cfg inner t m t₂ m₂ t₁ m₁ := by
  have hScript := (Discipline.unordered_lawful cfg).scripted_step t
  refine (BreaksAt.total hScript hApart (needs_iff.mp h₁) (needs_iff.mp h₂)).imp (fun h => ?_)
    fun h => ?_
  · exact ⟨hApart, h₂, fun message => needs_iff.mpr (h message)⟩
  · exact ⟨fun h => hApart ⟨h.1.symm, h.2.symm⟩, h₁, fun message => needs_iff.mpr (h message)⟩

/-- Of two machines that a run comes by, one is before the other. -/
theorem Before.total {fuel : Nat} (hx : Comes cfg fuel t m x) (hy : Comes cfg fuel t m y) :
    Before cfg fuel t m x y ∨ Before cfg fuel t m y x := by
  induction hx generalizing y with
  | start => exact .inl (.start hy)
  | stop => exact .inr (.stop hy)
  | @part fuel t t₁ m m₁ x need inside ih =>
    cases hy with
    | start => exact .inr (.start (.part need inside))
    | stop => exact .inl (.stop (.part need inside))
    | @part _ _ t₂ _ m₂ _ need' inside' =>
      by_cases hSame : t₁ = t₂ ∧ m₁ = m₂
      · obtain ⟨rfl, rfl⟩ := hSame
        exact (ih inside').imp (.part need) (.part need)
      · exact (Sooner.total hSame need need').imp (.across · inside inside')
          (.across · inside' inside)

end

/-! ## What is kept along the way -/

section

variable {D : Discipline} {cfg : Settings} {Asks : Task → Prop} {α : Type} {f : Worker → Eval α}
  {inner : Worker} {m k : Machine} {t : Task}

/-- A worker that keeps the discipline still does when it breaks off. -/
theorem next_interrupt (L : D.Lawful cfg)
    (hInner : ∀ t, Asks t → ∀ m, D.Inv m → D.Next m ((inner t).final m)) (t' : Task)
    (k' : Machine) (message : String) (ht : Asks t) (hInv : D.Inv m) :
    D.Next m ((inner.interrupt t' k' message t).final m) := by
  by_cases hSame : t = t' ∧ m = k'
  · obtain ⟨rfl, rfl⟩ := hSame
    rw [Eval.final_of_error (Worker.interrupt_self inner t m message)]
    exact L.here hInv
  · have hOther : inner.interrupt t' k' message t m = inner t m := Worker.interrupt_other hSame
    unfold Eval.final
    rw [hOther]
    exact hInner t ht m hInv

namespace Scripted

variable (L : D.Lawful cfg) (hLevel : D.Level) (hScript : Scripted D Asks f)
  (hInner : ∀ t, Asks t → ∀ m, D.Inv m → D.Next m ((inner t).final m))
include L hLevel hScript hInner

/-- A part starts from a machine that may come next. -/
theorem next_part (hInv : D.Inv m) (h : BreaksAt f inner m t k) : D.Next m k := by
  induction hScript generalizing m with
  | own => exact absurd h (BreaksAt.not_of_const fun _ => rfl)
  | ask =>
    obtain ⟨rfl, rfl⟩ := h.eq_of_ask
    exact L.here hInv
  | @bind _ _ f g first after ihFirst ihAfter =>
    rcases h.of_bind first with hFirst | ⟨-, a, m', hOk, hAfter⟩
    · exact ihFirst hInv hFirst
    · have hNext := first.final L hLevel hInner hInv
      rw [Eval.final_of_ok hOk] at hNext
      have hPart := ihAfter a hNext.1 hAfter
      exact ⟨hPart.1, L.trans hNext.2 hPart.2⟩
  | located span _ ih => exact ih hInv h.of_located
  | guarded span _ ih => exact ih hInv h.of_guarded
  | deeper _ ih => exact hLevel.next _ k.callDepth (ih (hLevel.inv _ hInv) h.of_withCallDepth)

/-- What a part leaves behind may come before what the whole leaves behind. -/
theorem grows_part (hInv : D.Inv m) (h : BreaksAt f inner m t k) :
    D.Next ((inner t).final k) ((f inner).final m) := by
  induction hScript generalizing m with
  | own => exact absurd h (BreaksAt.not_of_const fun _ => rfl)
  | ask asks =>
    obtain ⟨rfl, rfl⟩ := h.eq_of_ask
    exact L.here (hInner _ asks k hInv).1
  | @bind _ _ f g first after ihFirst ihAfter =>
    have hNext := first.final L hLevel hInner hInv
    rw [Eval.final_bind]
    rcases h.of_bind first with hFirst | ⟨-, a, m', hOk, hAfter⟩
    · have hPart := ihFirst hInv hFirst
      cases hf : f inner m with
      | error s m' =>
        rw [Eval.final_of_error hf] at hPart
        exact hPart
      | ok a m' =>
        rw [Eval.final_of_ok hf] at hPart
        have hRest := (after a).final L hLevel hInner hPart.1
        exact ⟨hRest.1, L.trans hPart.2 hRest.2⟩
    · rw [Eval.final_of_ok hOk] at hNext
      rw [hOk]
      exact ihAfter a hNext.1 hAfter
  | located span _ ih =>
    rw [Eval.final_located]
    exact ih hInv h.of_located
  | guarded span _ ih =>
    rw [Eval.final_guarded]
    exact ih hInv h.of_guarded
  | deeper _ ih =>
    rw [Eval.final_withCallDepth]
    exact hLevel.next ((inner t).final k).callDepth _ (ih (hLevel.inv _ hInv) h.of_withCallDepth)

/-- What the sooner of two parts leaves behind may come before what the later starts from. -/
theorem grows_between {t₁ t₂ : Task} {m₁ m₂ : Machine} {message : String}
    (hApart : ¬(t₁ = t₂ ∧ m₁ = m₂)) (hInv : D.Inv m) (h₂ : BreaksAt f inner m t₂ m₂)
    (h₁ : BreaksAt f (inner.interrupt t₂ m₂ message) m t₁ m₁) :
    D.Next ((inner t₁).final m₁) m₂ := by
  induction hScript generalizing m with
  | own => exact absurd h₁ (BreaksAt.not_of_const fun _ => rfl)
  | ask =>
    obtain ⟨rfl, rfl⟩ := h₁.eq_of_ask
    obtain ⟨rfl, rfl⟩ := h₂.eq_of_ask
    exact absurd ⟨rfl, rfl⟩ hApart
  | @bind _ _ f g first after ihFirst ihAfter =>
    rcases h₂.of_bind first with hFirst₂ | ⟨hSame, a, m', hOk, hAfter₂⟩
    · rcases h₁.of_bind first with hFirst₁ | ⟨-, a, m', hOk, -⟩
      · exact ihFirst hInv hFirst₂ hFirst₁
      · obtain ⟨m'', hEnd⟩ := hFirst₂ message
        cases hOk.symm.trans hEnd
    · have hNext := first.final L hLevel hInner hInv
      rw [Eval.final_of_ok hOk] at hNext
      rcases h₁.of_bind first with hFirst₁ | ⟨-, a', m'', hOk', hAfter₁⟩
      · have hBefore := first.grows_part L hLevel
          (fun t ht m hm => next_interrupt L hInner t₂ m₂ message ht hm) hInv hFirst₁
        have hFirst : inner.interrupt t₂ m₂ message t₁ m₁ = inner t₁ m₁ :=
          Worker.interrupt_other hApart
        unfold Eval.final at hBefore
        rw [hSame, hOk, hFirst] at hBefore
        have hAfter := (after a).next_part L hLevel hInner hNext.1 hAfter₂
        exact ⟨hAfter.1, L.trans hBefore.2 hAfter.2⟩
      · cases hOk.symm.trans ((hSame message).symm.trans hOk')
        exact ihAfter a hNext.1 hAfter₂ hAfter₁
  | located span _ ih => exact ih hInv h₂.of_located h₁.of_located
  | guarded span _ ih => exact ih hInv h₂.of_guarded h₁.of_guarded
  | deeper _ ih => exact ih (hLevel.inv _ hInv) h₂.of_withCallDepth h₁.of_withCallDepth

end Scripted

end

section

variable {Grows : Machine → Machine → Prop} {cfg : Settings} {fuel : Nat} {t t' : Task}
  {m m' x y : Machine}

namespace Discipline

variable (L : (ofOrder Grows).Lawful cfg) (hLevel : (ofOrder Grows).Level)
include L hLevel

theorem Lawful.grows_needs (h : Needs cfg (run cfg fuel) t m t' m') :
    Grows m m' ∧ Grows ((run cfg fuel t').final m') ((run cfg (fuel + 1) t).final m) := by
  have hScript := L.scripted_step t
  have hInner : ∀ t, anyTask t → ∀ m, (ofOrder Grows).Inv m →
      (ofOrder Grows).Next m ((run cfg fuel t).final m) :=
    fun t _ m _ => ⟨trivial, L.grows_run fuel t m⟩
  have hBreaks := needs_iff.mp h
  exact ⟨(hScript.next_part L hLevel hInner trivial hBreaks).2,
    (hScript.grows_part L hLevel hInner trivial hBreaks).2⟩

theorem Lawful.grows_sooner {t₁ t₂ : Task} {m₁ m₂ : Machine}
    (h : Sooner cfg (run cfg fuel) t m t₁ m₁ t₂ m₂) :
    Grows ((run cfg fuel t₁).final m₁) m₂ :=
  ((L.scripted_step t).grows_between L hLevel
    (fun t _ m _ => ⟨trivial, L.grows_run fuel t m⟩) h.apart trivial (needs_iff.mp h.second)
    (needs_iff.mp (h.first ""))).2

/-- What is kept by a run is kept up to each of its machines and from there on. -/
theorem Lawful.grows_comes (h : Comes cfg fuel t m x) :
    Grows m x ∧ Grows x ((run cfg fuel t).final m) := by
  induction h with
  | start => exact ⟨L.refl _, L.grows_run _ _ _⟩
  | stop => exact ⟨L.grows_run _ _ _, L.refl _⟩
  | part need _ ih =>
    have hPart := L.grows_needs hLevel need
    exact ⟨L.trans hPart.1 ih.1, L.trans ih.2 hPart.2⟩

/-- What is kept by a run is kept from each of its machines to every later one. -/
theorem Lawful.grows_of_before (h : Before cfg fuel t m x y) : Grows x y := by
  induction h with
  | start comes => exact (L.grows_comes hLevel comes).1
  | stop comes => exact (L.grows_comes hLevel comes).2
  | part _ _ ih => exact ih
  | across sooner first second =>
    refine L.trans (L.grows_comes hLevel first).2 (L.trans (L.grows_sooner hLevel sooner) ?_)
    exact (L.grows_comes hLevel second).1

end Discipline

end

end Tern
