import Tern.Syntax.Node

/-!
# Whole trees

What holds of a node and of everything below it, and how many levels a tree has. Both follow the
children of nodes, so that proofs about all forms of nodes go by one induction.

* `Node.All`: a property of every node of a tree;
* `Node.FitsIn`: the tree has at most so many levels.
-/

namespace Tern.Node

/-- The node and everything below it satisfies `P`. -/
inductive All (P : Node → Prop) : Node → Prop where
  | mk {n : Node} (here : P n) (below : ∀ c ∈ n.children, All P c) : All P n

variable {P Q : Node → Prop} {n c : Node}

theorem All.here (h : All P n) : P n := by
  obtain ⟨here, -⟩ := h
  exact here

theorem All.child (h : All P n) (hc : c ∈ n.children) : All P c := by
  obtain ⟨-, below⟩ := h
  exact below c hc

theorem All.mono (h : All P n) (hImp : ∀ n, P n → Q n) : All Q n := by
  induction h with
  | mk here below ih => exact .mk (hImp _ here) ih

theorem All.and (hP : All P n) (hQ : All Q n) : All (fun n => P n ∧ Q n) n := by
  induction hP with
  | mk here below ih => exact .mk ⟨here, hQ.here⟩ fun c hc => ih c hc (hQ.child hc)

/-- The tree has at most `levels` levels. -/
def FitsIn : Nat → Node → Prop
  | 0, _ => False
  | levels + 1, n => ∀ c ∈ n.children, FitsIn levels c

instance decidableFitsIn : (levels : Nat) → (n : Node) → Decidable (FitsIn levels n)
  | 0, _ => .isFalse id
  | levels + 1, n =>
    have := decidableFitsIn levels
    inferInstanceAs (Decidable (∀ c ∈ n.children, FitsIn levels c))

theorem FitsIn.child {levels : Nat} (h : FitsIn (levels + 1) n) (hc : c ∈ n.children) :
    FitsIn levels c :=
  h c hc

theorem FitsIn.mono {levels more : Nat} (h : FitsIn levels n) (hLe : levels ≤ more) :
    FitsIn more n := by
  induction levels generalizing n more with
  | zero => cases h
  | succ levels ih =>
    obtain ⟨more, rfl⟩ : ∃ k, more = k + 1 := ⟨more - 1, by omega⟩
    exact fun c hc => ih (h c hc) (by omega)

/-- Every tree has some number of levels. -/
theorem All.exists_fits (h : All P n) : ∃ levels, FitsIn levels n := by
  induction h with
  | mk here below ih =>
    have hCommon : ∀ ns : List Node, (∀ c ∈ ns, ∃ levels, FitsIn levels c) →
        ∃ levels, ∀ c ∈ ns, FitsIn levels c := by
      intro ns hns
      induction ns with
      | nil => exact ⟨0, by simp⟩
      | cons c ns ihList =>
        obtain ⟨a, ha⟩ := hns c List.mem_cons_self
        obtain ⟨b, hb⟩ := ihList fun c hc => hns c (List.mem_cons_of_mem _ hc)
        refine ⟨max a b, ?_⟩
        intro d hd
        rcases List.mem_cons.mp hd with rfl | hd
        · exact ha.mono (Nat.le_max_left a b)
        · exact (hb d hd).mono (Nat.le_max_right a b)
    obtain ⟨levels, hLevels⟩ := hCommon _ ih
    exact ⟨levels + 1, hLevels⟩

end Tern.Node
