import Tern.Proofs.Grammar.Placement
import Tern.Proofs.Machine.Code
import Tern.Proofs.Machine.Jumps
import Tern.Proofs.Session

/-!
# Where control can go

A statement that stands where it may ends as its surroundings allow: with `break` or `continue`
only inside a loop, with `return` only inside a function. Loops and functions give their bodies
surroundings of their own, so nothing gets past them. What a program does when it runs is
therefore known from how it was read, provided that every function on the heap was read as well.
That is a discipline, and so it lasts.

* `Stmt.permits_of_jumps`: code that is placed holds only jumps that its surroundings permit;
* `returns_execute`, `returns_executeAll`: so it ends as they allow;
* `Heap.Parsed`: every function on the heap was read;
* `parsedCode`: functions that were read are all that programs ever make;
* `control_stays_inside`: no jump leaves a function or the top level.
-/

namespace Tern

/-! ## Completions -/

/-- Whether a statement may end so in its surroundings. -/
def Completion.AllowedIn (ctx : Context) : Completion → Prop
  | .normal | .throw _ => True
  | .breakLoop | .continueLoop => ctx.inLoop = true
  | .ret _ => ctx.inFunction = true

/-- Whether the surroundings of a statement are such that it may jump. -/
def Context.Permits (ctx : Context) : Jump → Prop
  | .breakLoop | .continueLoop => ctx.inLoop = true
  | .ret => ctx.inFunction = true

theorem Completion.allowedIn_of_jump {ctx : Context} {c : Completion}
    (h : ∀ j, c.jump? = some j → ctx.Permits j) : c.AllowedIn ctx := by
  cases c with
  | normal | throw => trivial
  | breakLoop => exact h .breakLoop rfl
  | continueLoop => exact h .continueLoop rfl
  | ret v => exact h .ret rfl

/-- A block out of which a jump leaves a statement stands as the statement does, as far as the jump
is concerned. -/
theorem Stmt.placed_exits {ctx : Context} {j : Jump} {s : Stmt} {b : Block}
    (hPlaced : Node.Placed ctx (.stmt s)) (hBlock : b ∈ s.exits j) :
    ∃ ctx' : Context, (ctx'.Permits j → ctx.Permits j) ∧ Node.Placed ctx' (.block b) := by
  have hPart : ∀ n, (ctx, n) ∈ Node.stmtParts ctx s → Node.Placed ctx n := fun n => hPlaced.part
  have hLoop : ∀ {body : Block}, (ctx.loop, Node.block body) ∈ Node.stmtParts ctx s →
      b ∈ (if j = .ret then [body] else []) →
      ∃ ctx' : Context, (ctx'.Permits j → ctx.Permits j) ∧ Node.Placed ctx' (.block b) := by
    intro body hBody hMem
    split at hMem
    · next hj =>
      subst hj
      obtain rfl := List.mem_singleton.mp hMem
      exact ⟨ctx.loop, id, hPlaced.part hBody⟩
    · cases hMem
  cases s with
  | block b' =>
    obtain rfl := List.mem_singleton.mp hBlock
    exact ⟨ctx, id, hPlaced⟩
  | ifElse condition body elifs otherwise span =>
    refine ⟨ctx, id, ?_⟩
    rcases List.mem_cons.mp hBlock with rfl | hMem
    · exact hPart _ (by simp [Node.stmtParts, Node.ofStmt])
    rcases List.mem_append.mp hMem with hElif | hLast
    · obtain ⟨clause, hClause, rfl⟩ := List.mem_map.mp hElif
      have hArm : Node.Placed ctx (.elif clause) :=
        hPart _ (by simp [Node.stmtParts, Node.ofStmt, hClause])
      exact hArm.part (List.mem_cons_of_mem _ List.mem_cons_self)
    · obtain rfl := Option.mem_toList.mp hLast
      exact hPart _ (by simp [Node.stmtParts, Node.ofStmt])
  | tryCatch body param handler span =>
    refine ⟨ctx, id, ?_⟩
    rcases List.mem_cons.mp hBlock with rfl | hMem
    · exact hPart _ (by simp [Node.stmtParts, Node.ofStmt])
    · obtain rfl := List.mem_singleton.mp hMem
      exact hPart _ (by simp [Node.stmtParts, Node.ofStmt])
  | whileLoop condition body span => exact hLoop (by simp [Node.stmtParts]) hBlock
  | forLoop start condition update body span => exact hLoop (by simp [Node.stmtParts]) hBlock
  | simple | func | cls | breakLoop | continueLoop | ret | throw => cases hBlock

/-- Code that is placed holds only jumps that its surroundings permit. -/
theorem Stmt.permits_of_jumps {ctx : Context} {j : Jump} {s : Stmt} (hJumps : s.Jumps j)
    (hPlaced : Node.Placed ctx (.stmt s)) : ctx.Permits j := by
  induction hJumps generalizing ctx with
  | @here s own =>
    cases s with
    | breakLoop | continueLoop | ret =>
      cases own
      exact hPlaced.allowed
    | _ => cases own
  | @inside s s' b block mem within ih =>
    obtain ⟨ctx', hPermits, hBlock⟩ := Stmt.placed_exits hPlaced block
    exact hPermits (ih (hBlock.part (List.mem_map_of_mem (List.mem_map_of_mem mem))))

section

variable {ctx : Context} (cfg : Settings) (fuel depth : Nat) (env : Env)

/-- A statement that is placed ends as its surroundings allow. -/
theorem returns_execute {s : Stmt} (h : Node.Placed ctx (.stmt s)) :
    (run cfg fuel (.execute depth env s)).Returns (·.AllowedIn ctx) :=
  Eval.returns_mono (Task.jumps_run cfg fuel (.execute depth env s)) fun _ hc =>
    Completion.allowedIn_of_jump fun j hj => Stmt.permits_of_jumps (hc j hj) h

/-- Statements that are placed end as their surroundings allow. -/
theorem returns_executeAll {body : List Stmt} (h : ∀ s ∈ body, Node.Placed ctx (.stmt s)) :
    (run cfg fuel (.executeAll depth env body)).Returns (·.AllowedIn ctx) := by
  refine Eval.returns_mono (Task.jumps_run cfg fuel (.executeAll depth env body)) fun _ hc =>
    Completion.allowedIn_of_jump fun j hj => ?_
  obtain ⟨s, hMem, hJumps⟩ := hc j hj
  exact Stmt.permits_of_jumps hJumps (h s hMem)

end

/-! ## Signals -/

/-- What no statement can turn into a throw: a failure of the host, or the end of the steps
allowed. -/
def Signal.Final : Signal → Prop
  | .failure _ | .exhausted => True
  | _ => False

theorem Signal.final_of_toThrown? {s : Signal} {span : Option Span} (h : s.toThrown? span = none) :
    s.Final := by
  cases s with
  | failure | exhausted => trivial
  | fault | thrown | overflow => cases h

section

variable {cfg : Settings} {m m' : Machine} {depth : Nat} {env : Env} {signal : Signal}

/-- Only a final signal leaves a statement. -/
theorem final_of_execute {fuel : Nat} {s : Stmt}
    (h : run cfg fuel (.execute depth env s) m = .error signal m') : signal.Final := by
  cases fuel with
  | zero =>
    cases h
    trivial
  | succ fuel =>
    change Eval.guarded _ _ m = .error signal m' at h
    unfold Eval.guarded at h
    split at h
    · cases h
    · split at h
      · cases h
      · next hFinal =>
        cases h
        exact Signal.final_of_toThrown? hFinal

theorem final_of_executeAll {fuel : Nat} {body : List Stmt}
    (h : run cfg fuel (.executeAll depth env body) m = .error signal m') : signal.Final := by
  induction fuel generalizing body m with
  | zero =>
    cases h
    trivial
  | succ fuel ih =>
    cases body with
    | nil => cases h
    | cons s rest =>
      change EStateM.bind (run cfg fuel (.execute depth env s)) _ m = .error signal m' at h
      unfold EStateM.bind at h
      split at h
      · next c _ _ =>
        cases c with
        | normal => exact ih h
        | breakLoop | continueLoop | ret | throw => cases h
      · next hFirst =>
        cases h
        exact final_of_execute hFirst

theorem final_of_executeTop {s : Stmt} (h : executeTop cfg env s m = .error signal m') :
    signal.Final := by
  by_cases hExpr : ∃ e span, s = .simple (.expr e span)
  · obtain ⟨e, span, rfl⟩ := hExpr
    unfold executeTop at h
    dsimp only at h
    split at h
    · cases h
    · split at h
      · cases h
      · next hFinal =>
        cases h
        exact Signal.final_of_toThrown? hFinal
  · rw [executeTop_eq fun e span hs => hExpr ⟨e, span, hs⟩] at h
    change EStateM.bind (execute cfg cfg.fuel 0 env s) _ m = .error signal m' at h
    unfold EStateM.bind at h
    split at h
    · cases h
    · next hFirst =>
      cases h
      exact final_of_execute hFirst

end

/-- A statement that may stand at the top level ends normally there, or throws. -/
theorem returns_executeTop (cfg : Settings) (env : Env) {s : Stmt}
    (h : Node.Placed .top (.stmt s)) :
    (executeTop cfg env s).Returns fun r => r.1 = .normal ∨ ∃ t, r.1 = .throw t := by
  by_cases hExpr : ∃ e span, s = .simple (.expr e span)
  · obtain ⟨e, span, rfl⟩ := hExpr
    intro m r m' hRun
    unfold executeTop at hRun
    dsimp only at hRun
    split at hRun
    · cases hRun
      exact .inl rfl
    · split at hRun
      · cases hRun
        exact .inr ⟨_, rfl⟩
      · cases hRun
  · rw [executeTop_eq fun e span hs => hExpr ⟨e, span, hs⟩]
    refine Eval.returns_bind (returns_execute cfg cfg.fuel 0 env h) fun c hc => ?_
    refine Eval.returns_pure ?_
    cases c with
    | normal => exact .inl rfl
    | throw t => exact .inr ⟨t, rfl⟩
    | breakLoop | continueLoop | ret => cases hc

/-! ## Code that was read -/

/-- A node that stands in a program that was read, in these surroundings. -/
def Node.Read (ctx : Context) (n : Node) : Prop :=
  ∃ source p, Program.parse? source = .ok p ∧ Node.Within .top (.program p) ctx n

theorem Node.Read.part {ctx ctx' : Context} {n n' : Node} (h : Node.Read ctx n)
    (hPart : (ctx', n') ∈ n.parts ctx) : Node.Read ctx' n' := by
  obtain ⟨source, p, hParse, hWithin⟩ := h
  exact ⟨source, p, hParse, .part hWithin hPart⟩

theorem Node.Read.placed {ctx : Context} {n : Node} (h : Node.Read ctx n) : Node.Placed ctx n := by
  obtain ⟨source, p, hParse, hWithin⟩ := h
  exact (Program.placed_of_parse hParse).within hWithin

/-- A function definition that was read. -/
def FuncDef.Read (f : FuncDef) : Prop := ∃ ctx, Node.Read ctx (.stmt (.func f))

theorem Node.hereditary_read : Node.Hereditary Node.Read :=
  fun _ _ _ hRead hPart => hRead.part hPart

/-- Every function on the heap was read. -/
def Heap.Parsed (h : Heap) : Prop := ∀ c ∈ h.closures, c.definition.Read

/-- The body of a function that was read stands in no loop. -/
theorem Heap.Parsed.body {h : Heap} (hParsed : h.Parsed) (id : FuncId) :
    ∃ ctx : Context, ctx.inLoop = false ∧
      ∀ s ∈ (h.closure id).definition.body.body, Node.Read ctx (.stmt s) := by
  have hCode : h.CodeHas Node.Read := hParsed
  rcases hCode.closure id with ⟨ctx, hFunc⟩ | hEmpty
  · exact ⟨ctx.func, rfl, Node.hereditary_read.body hFunc⟩
  · exact ⟨.top, rfl, by simp [hEmpty]⟩

/-- Programs that were read only make functions that were read. -/
def parsedCode : Discipline where
  Inv m := m.heap.Parsed
  Grows _ _ := True
  Val _ _ := True
  Site := Unit
  At _ _ _ := True
  Code _ ctx n := Node.Read ctx n

theorem parsedCode_lawful (cfg : Settings) : parsedCode.Lawful cfg :=
  codeHas_lawful Node.hereditary_read cfg

/-- What a program that was read is made of was read. -/
theorem Node.read_of_parse {source : String} {p : Program}
    (hParse : Program.parse? source = .ok p) : Node.Read .top (.program p) :=
  ⟨source, p, hParse, .root⟩

theorem Node.Read.body {p : Program} (h : Node.Read .top (.program p)) :
    ∀ s ∈ p.body, Node.Read .top (.stmt s) := fun _ hs =>
  h.part (List.mem_map_of_mem (List.mem_map_of_mem hs))

/-- A function body that was read ends without a jump out of it. -/
theorem ends_of_body {h : Heap} (hParsed : h.Parsed) (id : FuncId) {cfg : Settings}
    {fuel depth : Nat} {env : Env} {m m' : Machine} {c : Completion}
    (hRun : run cfg fuel (.executeAll depth env (h.closure id).definition.body.body) m = .ok c m') :
    c = .normal ∨ (∃ v, c = .ret v) ∨ ∃ t, c = .throw t := by
  obtain ⟨ctx, hLoop, hBody⟩ := hParsed.body id
  have hAllowed : c.AllowedIn ctx :=
    returns_executeAll cfg fuel depth env (fun _ hs => (hBody _ hs).placed) m c m' hRun
  cases c with
  | normal => exact .inl rfl
  | ret v => exact .inr (.inl ⟨v, rfl⟩)
  | throw t => exact .inr (.inr ⟨t, rfl⟩)
  | breakLoop | continueLoop =>
    have hJump : ctx.inLoop = true := hAllowed
    rw [hLoop] at hJump
    cases hJump

/-- No jump leaves a function or the top level. When a program that was read runs on a heap of
functions that were read, each of its statements ends normally or throws, unless a final signal
breaks it off; whatever function is called on the way, its body ends normally, returns or throws;
and the heap is again one of functions that were read. -/
theorem control_stays_inside (cfg : Settings) (halt : Nat → Bool) (env : Env) (m : Machine)
    (source : String) (p : Program) (hParse : Program.parse? source = .ok p)
    (hHeap : m.heap.Parsed) :
    (∀ s m₁, Starts cfg halt env p.body m s m₁ →
      (∀ c v m₂, executeTop cfg env s m₁ = .ok (c, v) m₂ → c = .normal ∨ ∃ t, c = .throw t) ∧
      ∀ signal m₂, executeTop cfg env s m₁ = .error signal m₂ → signal.Final) ∧
    (∀ m₁ depth id self args, Passes cfg halt env p m (.applyFunc depth id self args) m₁ →
      ∀ fuel callEnv m₂ c m₃,
        run cfg fuel (.executeAll depth callEnv (m₁.heap.closure id).definition.body.body) m₂ =
          .ok c m₃ →
        c = .normal ∨ (∃ v, c = .ret v) ∨ ∃ t, c = .throw t) ∧
    ((interpret cfg halt env p).final m).heap.Parsed := by
  have L := parsedCode_lawful cfg
  have hBody := (Node.read_of_parse hParse).body
  have hAt : ∀ h, parsedCode.At h () env := fun _ => trivial
  refine ⟨?_, ?_, ?_⟩
  · intro s m₁ hStarts
    have hRead := (L.inv_of_starts hAt hHeap hBody hStarts).2
    refine ⟨fun c v m₂ hRun => ?_, fun signal m₂ hRun => final_of_executeTop hRun⟩
    exact returns_executeTop cfg env (Node.Read.placed hRead) m₁ (c, v) m₂ hRun
  · intro m₁ depth id self args hPasses fuel callEnv m₂ c m₃ hRun
    have hParsed := (L.fits_of_passes hAt hHeap hBody hPasses).1
    exact ends_of_body hParsed id hRun
  · exact (L.holds_interpretFrom hAt hHeap hBody).next.1

set_option maxRecDepth 100000 in
/-- A function that returns from inside a loop, in a fresh session. -/
theorem control_stays_inside_standard : ∃ p,
    Program.parse? "func f() { for (;;) { return; } }" = .ok p ∧
    Session.standard.machine.heap.Parsed ∧
    ∀ s m₁, Starts Session.standard.settings Session.standard.halt Session.standard.globals p.body
        Session.standard.machine s m₁ → ∀ c v m₂,
      executeTop Session.standard.settings Session.standard.globals s m₁ = .ok (c, v) m₂ →
      c = .normal ∨ ∃ t, c = .throw t := by
  have hSome : ∃ p, Program.parse? "func f() { for (;;) { return; } }" = .ok p := by
    refine Program.exists_of_tokens ?stream ?scanned ?read
    case scanned =>
      cbv
      rfl
    case read => decide +kernel
  obtain ⟨p, hParse⟩ := hSome
  have hHeap : Session.standard.machine.heap.Parsed := by
    intro c hc
    simp [Session.standard, Session.create, Session.attach, Heap.newScope, Heap.empty] at hc
  refine ⟨p, hParse, hHeap, fun s m₁ hStarts => ?_⟩
  exact ((control_stays_inside _ _ _ _ _ p hParse hHeap).1 s m₁ hStarts).1

end Tern
