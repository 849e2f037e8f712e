import Tern.Proofs.Machine.Defining

/-!
# Classes are numbered

Every class definition that finds its superclass gives away a number, and the next one gives away a
greater one. So no two of the definitions that a session comes to make classes of one number.

* `counted`: the order in which more and more numbers are given away;
* `Defines.counts`: a definition gives a number away before the run ends;
* `Defines.unique`, `Session.Defines.unique`: definitions that give away the same number are the
  same.
-/

namespace Tern

/-- No number is taken back. -/
abbrev counted : Discipline := .ofOrder fun m m' => m.heap.classes ≤ m'.heap.classes

section

variable {cfg : Settings} {m m' : Machine}

/-- A definition that finds its superclass takes a number, whether or not the name of the class is
free. -/
theorem classes_defineClass {env : Env} {c : ClassDef} {parent : Option Class}
    (found : Eval.superclass env c m = .ok parent m) :
    ((Eval.defineClass env c).final m).heap.classes = m.heap.classes + 1 := by
  have hFinal : (Eval.defineClass env c).final m =
      (Eval.declare env c.id.name (.cls (m.heap.classOf c parent)) false).final
        (m.withHeap (m.heap.withClass env c parent)) := by
    rw [Eval.final, Eval.final, Eval.defineClass_eq found]
  rw [hFinal]
  rcases Eval.final_declare env c.id.name (.cls (m.heap.classOf c parent)) false
    (m.withHeap (m.heap.withClass env c parent)) with hSame | ⟨-, hBound⟩
  · rw [hSame]
    rfl
  · rw [hBound]
    rfl

theorem Heap.lasting_classes : Heap.Lasting fun h h' => h.classes ≤ h'.classes where
  refl _ := Nat.le_refl _
  trans := Nat.le_trans
  countNan _ _ := Nat.le_refl _
  newArray _ _ := Nat.le_refl _
  newObject _ _ := Nat.le_refl _
  newScope _ _ := Nat.le_refl _
  newClosure _ _ := Nat.le_refl _
  setField _ _ _ _ := Nat.le_refl _
  setElement _ _ _ _ := Nat.le_refl _
  declare _ _ := Nat.le_refl _
  assign _ _ := Nat.le_refl _
  withClass _ _ _ _ := Nat.le_succ _

theorem counted_lawful (cfg : Settings) : counted.Lawful cfg := Heap.lasting_classes.lawful cfg

theorem counted_level : counted.Level :=
  Discipline.level_ofHeaps fun h h' => h.classes ≤ h'.classes

end

/-! ## Runs -/

section

variable {cfg : Settings} {fuel : Nat} {t : Task} {m k k' : Machine} {env env' : Env}
  {c c' : ClassDef} {parent parent' : Option Class}

/-- A run that comes to a definition gives away its number by its end. -/
theorem Defines.counts (h : Defines cfg fuel t m env c k)
    (found : Eval.superclass env c k = .ok parent k) :
    m.heap.classes ≤ k.heap.classes ∧
      k.heap.classes < ((run cfg fuel t).final m).heap.classes := by
  induction h with
  | @here fuel depth env c m room =>
    refine ⟨Nat.le_refl _, ?_⟩
    have hRun : run cfg (fuel + 1) (.execute depth env (.cls c)) =
        Eval.guarded (Stmt.cls c).span
          (Eval.defineClass env c >>= fun _ => (pure .normal : Eval Completion)) := by
      change Step.execute cfg (run cfg fuel) depth env (.cls c) = _
      rw [Step.execute, room]
      rfl
    rw [hRun, Eval.final_guarded, Eval.final_bind_pure, classes_defineClass found]
    exact Nat.lt_succ_self _
  | part need _ ih =>
    obtain ⟨hBefore, hAfter⟩ := ih found
    obtain ⟨hStart, hEnd⟩ := (counted_lawful cfg).grows_needs counted_level need
    exact ⟨Nat.le_trans hStart hBefore, Nat.lt_of_lt_of_le hAfter hEnd⟩

/-- Definitions that give away the same number are the same. -/
theorem Defines.unique (h : Defines cfg fuel t m env c k)
    (found : Eval.superclass env c k = .ok parent k) (h' : Defines cfg fuel t m env' c' k')
    (found' : Eval.superclass env' c' k' = .ok parent' k')
    (hSame : k.heap.classes = k'.heap.classes) : env = env' ∧ c = c' ∧ k = k' := by
  induction h with
  | here =>
    cases h' with
    | here => exact ⟨rfl, rfl, rfl⟩
    | part need => exact absurd need not_needs_cls
  | @part fuel t t₁ m m₁ k env c need inside ih =>
    cases h' with
    | here => exact absurd need not_needs_cls
    | @part _ _ t₂ _ m₂ _ _ _ need' inside' =>
      by_cases hParts : t₁ = t₂ ∧ m₁ = m₂
      · obtain ⟨rfl, rfl⟩ := hParts
        exact ih found inside' hSame
      · have hFirst := inside.counts found
        have hSecond := inside'.counts found'
        rcases Sooner.total hParts need need' with hSooner | hSooner
        · have hBetween := (counted_lawful cfg).grows_sooner counted_level hSooner
          omega
        · have hBetween := (counted_lawful cfg).grows_sooner counted_level hSooner
          omega

end

/-! ## Programs -/

section

variable {cfg : Settings} {halt : Nat → Bool} {env env₁ env₂ : Env} {body : List Stmt}
  {m k k' : Machine} {c c' : ClassDef} {parent parent' : Option Class}

/-- A program that comes to a definition gives away its number while it runs. -/
theorem DefinesAmong.counts (h : DefinesAmong cfg halt env body m env₁ c k)
    (found : Eval.superclass env₁ c k = .ok parent k) :
    m.heap.classes ≤ k.heap.classes ∧
      ∃ x, ComesAmong cfg halt env body m x ∧ k.heap.classes < x.heap.classes := by
  induction h with
  | inside goesOn defines =>
    obtain ⟨hBefore, hAfter⟩ := defines.counts found
    exact ⟨hBefore, _, .inside goesOn .stop, hAfter⟩
  | @later s rest m m₁ k v env' c goesOn ends defines ih =>
    have hEnd : m.heap.classes ≤ ((executeTop cfg env s).final m).heap.classes :=
      (counted_lawful cfg).grows_executeTop s
    rw [Eval.final_of_ok ends] at hEnd
    obtain ⟨hBefore, x, comes, hAfter⟩ := ih found
    exact ⟨Nat.le_trans hEnd hBefore, x, .later goesOn ends comes, hAfter⟩

theorem DefinesAmong.unique (h : DefinesAmong cfg halt env body m env₁ c k)
    (found : Eval.superclass env₁ c k = .ok parent k)
    (h' : DefinesAmong cfg halt env body m env₂ c' k')
    (found' : Eval.superclass env₂ c' k' = .ok parent' k')
    (hSame : k.heap.classes = k'.heap.classes) : env₁ = env₂ ∧ c = c' ∧ k = k' := by
  -- what the first statement gives away is below what the ones after it do
  have hApart : ∀ {s : Stmt} {rest : List Stmt} {m m₁ k k' : Machine} {v : Value}
      {env₁ env₂ : Env} {c c' : ClassDef} {parent parent' : Option Class},
      Defines cfg cfg.fuel (s.topTask env) m env₁ c k →
      Eval.superclass env₁ c k = .ok parent k →
      executeTop cfg env s m = .ok (.normal, v) m₁ →
      DefinesAmong cfg halt env rest { m₁ with executed := m₁.executed + 1 } env₂ c' k' →
      Eval.superclass env₂ c' k' = .ok parent' k' → k.heap.classes < k'.heap.classes := by
    intro s rest m m₁ k k' v env₁ env₂ c c' parent parent' hFirst found ends hLater found'
    have hTop := (hFirst.counts found).2
    rw [← final_executeTop, Eval.final_of_ok ends] at hTop
    exact Nat.lt_of_lt_of_le hTop (hLater.counts found').1
  induction h with
  | inside goesOn defines =>
    cases h' with
    | inside _ defines' => exact defines.unique found defines' found' hSame
    | later _ ends defines' =>
      exact absurd hSame (Nat.ne_of_lt (hApart defines found ends defines' found'))
  | later goesOn ends defines ih =>
    cases h' with
    | inside _ defines' =>
      exact absurd hSame (Nat.ne_of_gt (hApart defines' found' ends defines found))
    | later _ ends' defines' =>
      cases ends.symm.trans ends'
      exact ih found defines' hSame

end

/-! ## Sessions -/

namespace Session

variable {s : Session} {step : Step} {steps : List Step} {env env' : Env} {c c' : ClassDef}
  {k k' : Machine} {parent parent' : Option Class}

theorem DefinesIn.counts (h : s.DefinesIn step env c k)
    (found : Eval.superclass env c k = .ok parent k) :
    s.machine.heap.classes ≤ k.heap.classes ∧
      k.heap.classes < (s.next step).machine.heap.classes := by
  cases h with
  | program opens defines =>
    obtain ⟨hBefore, x, comes, hAfter⟩ := defines.counts found
    exact ⟨Nat.le_trans ((counted_lawful s.settings).grows_opens opens) hBefore,
      Nat.lt_of_lt_of_le hAfter
        ((counted_lawful s.settings).grows_stepped counted_level opens comes)⟩
  | evaluate defines =>
    obtain ⟨hBefore, hAfter⟩ := defines.counts found
    refine ⟨hBefore, ?_⟩
    rw [show (s.next (.evaluate _)).machine = _ from machine_perform s _]
    exact hAfter

theorem DefinesIn.unique (h : s.DefinesIn step env c k)
    (found : Eval.superclass env c k = .ok parent k) (h' : s.DefinesIn step env' c' k')
    (found' : Eval.superclass env' c' k' = .ok parent' k')
    (hSame : k.heap.classes = k'.heap.classes) : env = env' ∧ c = c' ∧ k = k' := by
  cases h with
  | program opens defines =>
    cases h' with
    | program opens' defines' =>
      obtain ⟨rfl, rfl, rfl⟩ := opens.unique opens'
      exact defines.unique found defines' found' hSame
    | evaluate => exact nomatch opens
  | evaluate defines =>
    cases h' with
    | program opens => exact nomatch opens
    | evaluate defines' => exact defines.unique found defines' found' hSame

/-- A session that comes to a definition gives away its number. -/
theorem Defines.counts (h : s.Defines steps env c k)
    (found : Eval.superclass env c k = .ok parent k) :
    s.machine.heap.classes ≤ k.heap.classes := by
  induction h with
  | inside defines => exact (defines.counts found).1
  | @later s step rest env c k _ ih =>
    exact Nat.le_trans ((counted_lawful s.settings).grows_next step) (ih found)

/-- Of the definitions that a session comes to, those that give away the same number are the
same. -/
theorem Defines.unique (h : s.Defines steps env c k)
    (found : Eval.superclass env c k = .ok parent k) (h' : s.Defines steps env' c' k')
    (found' : Eval.superclass env' c' k' = .ok parent' k')
    (hSame : k.heap.classes = k'.heap.classes) : env = env' ∧ c = c' ∧ k = k' := by
  induction h with
  | inside defines =>
    cases h' with
    | inside defines' => exact defines.unique found defines' found' hSame
    | later defines' =>
      have hFirst := (defines.counts found).2
      have hSecond := defines'.counts found'
      omega
  | later defines ih =>
    cases h' with
    | inside defines' =>
      have hFirst := (defines'.counts found').2
      have hSecond := defines.counts found
      omega
    | later defines' => exact ih found defines' hSame

end Session

end Tern
