import Tern.Grammar.Expression
import Tern.Syntax.Node

/-!
# Where constructs may stand

Some constructs need others around them: a `break` needs a loop of the same function, a
`return` a function, `this` a class and `super` a class with a superclass. Names must not be
keywords. `Node.Allowed` says this of one node, `Node.parts` hands the surroundings on to the
parts of a node, and a tree is `Node.Placed` when every node in it is allowed where it stands.

* `Node.map_snd_parts`: the parts of a node are its children;
* `Node.placed_iff`: a tree is placed when its root is allowed and its parts are placed;
* `Node.Lawful`: the same, but for the names.
-/

namespace Tern

namespace Context

/-- Inside a loop. -/
def loop (ctx : Context) : Context := { ctx with inLoop := true }

/-- Inside a function: the loops around it do not count. -/
def func (ctx : Context) : Context := { ctx with inFunction := true, inLoop := false }

/-- Inside a class, which has a superclass or not. -/
def cls (ctx : Context) (derived : Bool) : Context := { ctx with enclosing := some derived }

end Context

namespace Node

/-- The children of a statement, each with the surroundings in which it stands. -/
def stmtParts (ctx : Context) : Stmt → List (Context × Node)
  | .func f => (ident f.id :: f.params.map ident).map (ctx, ·) ++ [(ctx.func, block f.body)]
  | .cls c => (ident c.id :: (c.superclass.map ident).toList).map (ctx, ·) ++
      c.methods.map fun f => (ctx.cls c.superclass.isSome, stmt (.func f))
  | .whileLoop c b _ => [(ctx, expr c), (ctx.loop, block b)]
  | .forLoop i c u b _ =>
    ((i.map (stmt ∘ .simple)).toList ++ (c.map expr).toList ++ (u.map expr).toList).map (ctx, ·)
      ++ [(ctx.loop, block b)]
  | s => (ofStmt s).map (ctx, ·)

/-- The children of a node, each with the surroundings in which it stands. -/
def parts (ctx : Context) : Node → List (Context × Node)
  | stmt s => stmtParts ctx s
  | n => n.children.map (ctx, ·)

theorem map_snd_parts (ctx : Context) (n : Node) : (n.parts ctx).map (·.2) = n.children := by
  cases n with
  | stmt s => cases s <;> simp [parts, stmtParts, children, ofStmt, Function.comp_def]
  | program | elif | expr => simp [parts, Function.comp_def]

/-- The parts of a node that belong to the same class as the node itself: all but the methods
of a class. -/
def ownParts (ctx : Context) : Node → List (Context × Node)
  | stmt (.cls c) => (ident c.id :: (c.superclass.map ident).toList).map (ctx, ·)
  | n => n.parts ctx

theorem mem_parts_of_own {ctx : Context} {n : Node} {q : Context × Node}
    (h : q ∈ n.ownParts ctx) : q ∈ n.parts ctx := by
  unfold ownParts at h
  split at h
  · exact List.mem_append_left _ h
  · exact h

/-- The class around a node is the class around its own parts. -/
theorem enclosing_of_own {ctx : Context} {n : Node} {q : Context × Node}
    (h : q ∈ n.ownParts ctx) : q.1.enclosing = ctx.enclosing := by
  have hSame : ∀ ns : List Node, q ∈ ns.map (ctx, ·) → q.1.enclosing = ctx.enclosing := by
    intro ns hq
    obtain ⟨n', -, rfl⟩ := List.mem_map.mp hq
    rfl
  cases n with
  | program | elif | expr => exact hSame _ h
  | stmt s =>
    cases s with
    | func f =>
      rcases List.mem_append.mp h with hq | hq
      · exact hSame _ hq
      · obtain rfl := List.mem_singleton.mp hq
        rfl
    | whileLoop c b span =>
      rcases List.mem_cons.mp h with rfl | hq
      · rfl
      · obtain rfl := List.mem_singleton.mp hq
        rfl
    | forLoop i c u b span =>
      rcases List.mem_append.mp h with hq | hq
      · exact hSame _ hq
      · obtain rfl := List.mem_singleton.mp hq
        rfl
    | simple | cls | block | ifElse | breakLoop | continueLoop | ret | tryCatch | throw =>
      exact hSame _ h

/-- Whether the word is a name and not a keyword. -/
def isName (word : String) : Prop := TokenKind.ofWord word = .identifier

/-- Whether a node may stand in its surroundings, its parts aside. -/
def Allowed (ctx : Context) : Node → Prop
  | expr (.name id) => isName id.name
  | expr (.this _) => ctx.enclosing ≠ none
  | expr (.super _ _) => ctx.enclosing = some true
  | stmt (.breakLoop _) | stmt (.continueLoop _) => ctx.inLoop = true
  | stmt (.ret _ _) => ctx.inFunction = true
  | stmt (.func f) => (f.params.map (·.name)).Nodup
  | stmt (.cls c) => ∀ parent ∈ c.superclass, parent.name ≠ c.id.name
  | _ => True

/-- `Within ctx n ctx' n'`: the tree `n` in the surroundings `ctx` has `n'` in it, in the
surroundings `ctx'`. -/
inductive Within (ctx : Context) (n : Node) : Context → Node → Prop where
  | root : Within ctx n ctx n
  | part {ctx' ctx'' : Context} {n' n'' : Node} (above : Within ctx n ctx' n')
      (mem : (ctx'', n'') ∈ n'.parts ctx') : Within ctx n ctx'' n''

theorem Within.trans {ctx₁ ctx₂ ctx₃ : Context} {n₁ n₂ n₃ : Node}
    (h₁ : Within ctx₁ n₁ ctx₂ n₂) (h₂ : Within ctx₂ n₂ ctx₃ n₃) : Within ctx₁ n₁ ctx₃ n₃ := by
  induction h₂ with
  | root => exact h₁
  | part _ mem ih => exact .part ih mem

/-- Like `Within`, but without going into the methods of a class: `n'` stands in the innermost
class that `n` stands in. -/
inductive Inside (ctx : Context) (n : Node) : Context → Node → Prop where
  | root : Inside ctx n ctx n
  | part {ctx' ctx'' : Context} {n' n'' : Node} (above : Inside ctx n ctx' n')
      (mem : (ctx'', n'') ∈ n'.ownParts ctx') : Inside ctx n ctx'' n''

theorem Inside.enclosing {ctx ctx' : Context} {n n' : Node} (h : Inside ctx n ctx' n') :
    ctx'.enclosing = ctx.enclosing := by
  induction h with
  | root => rfl
  | part _ mem ih => exact (enclosing_of_own mem).trans ih

/-- Every node of a tree is allowed where it stands. -/
def Placed (ctx : Context) (n : Node) : Prop :=
  ∀ ctx' n', Within ctx n ctx' n' → n'.Allowed ctx'

theorem Placed.allowed {ctx : Context} {n : Node} (h : Placed ctx n) : n.Allowed ctx :=
  h ctx n .root

theorem Placed.within {ctx ctx' : Context} {n n' : Node} (h : Placed ctx n)
    (hWithin : Within ctx n ctx' n') : Placed ctx' n' :=
  fun _ _ hBelow => h _ _ (hWithin.trans hBelow)

theorem Placed.part {ctx ctx' : Context} {n n' : Node} (h : Placed ctx n)
    (hPart : (ctx', n') ∈ n.parts ctx) : Placed ctx' n' :=
  h.within (.part .root hPart)

theorem Within.eq_or_part {ctx ctx' : Context} {n n' : Node} (h : Within ctx n ctx' n') :
    (ctx' = ctx ∧ n' = n) ∨ ∃ q ∈ n.parts ctx, Within q.1 q.2 ctx' n' := by
  induction h with
  | root => exact .inl ⟨rfl, rfl⟩
  | part above mem ih =>
    right
    rcases ih with ⟨rfl, rfl⟩ | ⟨q, hq, hWithin⟩
    · exact ⟨_, mem, .root⟩
    · exact ⟨q, hq, .part hWithin mem⟩

theorem placed_iff {ctx : Context} {n : Node} :
    Placed ctx n ↔ n.Allowed ctx ∧ ∀ q ∈ n.parts ctx, Placed q.1 q.2 := by
  constructor
  · intro h
    exact ⟨h.allowed, fun q hq => h.part hq⟩
  · rintro ⟨hAllowed, hParts⟩ ctx' n' hWithin
    rcases hWithin.eq_or_part with ⟨rfl, rfl⟩ | ⟨q, hq, hBelow⟩
    · exact hAllowed
    · exact hParts q hq ctx' n' hBelow

/-! ## Names aside -/

/-- Whether a node may stand in its surroundings, whatever the names in it are. -/
def Obeys (ctx : Context) : Node → Prop
  | expr (.name _) => True
  | n => n.Allowed ctx

/-- Every node of a tree may stand where it stands, whatever the names are. -/
def Lawful (ctx : Context) (n : Node) : Prop :=
  ∀ ctx' n', Within ctx n ctx' n' → n'.Obeys ctx'

theorem Allowed.obeys {ctx : Context} {n : Node} (h : n.Allowed ctx) : n.Obeys ctx := by
  unfold Obeys
  split
  · trivial
  · exact h

theorem Placed.lawful {ctx : Context} {n : Node} (h : Placed ctx n) : Lawful ctx n :=
  fun ctx' n' hWithin => (h ctx' n' hWithin).obeys

theorem Lawful.here {ctx : Context} {n : Node} (h : Lawful ctx n) : n.Obeys ctx :=
  h ctx n .root

theorem Lawful.part {ctx ctx' : Context} {n n' : Node} (h : Lawful ctx n)
    (hPart : (ctx', n') ∈ n.parts ctx) : Lawful ctx' n' :=
  fun _ _ hWithin => h _ _ (Within.trans (.part .root hPart) hWithin)

theorem Lawful.inExpr {ctx : Context} {e : Expr} {c : Node} (h : Lawful ctx (.expr e))
    (hc : c ∈ ofExpr e) : Lawful ctx c :=
  h.part (List.mem_map_of_mem hc)

end Node

end Tern
