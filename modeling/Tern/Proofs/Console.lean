import Mathlib.Data.List.Infix
import Tern.Console

/-!
# Consoles go on

Reading and writing only ever add to what was written, and take from what is to come. So every
failure of a console was there from the start: among the writes to come, or in the feed.

* `Console.Fails`: a failure that may still come;
* `Console.Onward`: what a console may become;
* `Console.onward_readLine`, `Console.onward_write`: reading and writing lead onward;
* `Console.fails_of_readLine`, `Console.fails_of_write`: they fail only where the console does.
-/

namespace Tern

namespace Feed

theorem rest_suffix_readOn (feed : Feed) (bytes : List Nat) (pauses : Nat) :
    (readOn bytes pauses feed).rest <:+ feed := by
  induction feed generalizing bytes pauses with
  | nil => exact List.nil_suffix
  | cons attempt feed ih =>
    cases attempt with
    | ended | failed => exact List.suffix_cons _ _
    | notReady => exact (ih _ _).trans (List.suffix_cons _ _)
    | byte b =>
      rw [readOn]
      split
      · exact List.suffix_cons _ _
      · exact (ih _ _).trans (List.suffix_cons _ _)

theorem failed_mem_of_readOn {feed : Feed} {bytes : List Nat} {pauses : Nat} {message : String}
    (h : (readOn bytes pauses feed).line = .error message) : .failed message ∈ feed := by
  induction feed generalizing bytes pauses with
  | nil => cases h
  | cons attempt feed ih =>
    cases attempt with
    | ended => cases h
    | failed text =>
      cases h
      exact List.mem_cons_self
    | notReady => exact List.mem_cons_of_mem _ (ih h)
    | byte b =>
      rw [readOn] at h
      split at h
      · cases h
      · exact List.mem_cons_of_mem _ (ih h)

end Feed

/-- Reading lines may come to fail with this message. -/
def LineSource.Fails (message : String) : LineSource → Prop
  | .lines _ => False
  | .feed rest => Attempt.failed message ∈ rest

namespace Console

/-- The console may come to fail with this message. -/
def Fails (c : Console) (message : String) : Prop :=
  some message ∈ c.writes ∨ c.input.Fails message

/-- A console that `c` may have become: texts were added to the output, and no failures to what
is to come. -/
structure Onward (c c' : Console) : Prop where
  output : ∃ text, c'.output = c.output ++ text
  fails : ∀ message, c'.Fails message → c.Fails message

variable {c c₁ c₂ : Console}

theorem Onward.refl (c : Console) : c.Onward c :=
  ⟨⟨"", by simp⟩, fun _ h => h⟩

theorem Onward.trans (h₁ : c.Onward c₁) (h₂ : c₁.Onward c₂) : c.Onward c₂ := by
  obtain ⟨text₁, hText₁⟩ := h₁.output
  obtain ⟨text₂, hText₂⟩ := h₂.output
  refine ⟨⟨text₁ ++ text₂, ?_⟩, fun message h => h₁.fails message (h₂.fails message h)⟩
  rw [hText₂, hText₁, String.append_assoc]

theorem onward_of_input {input : LineSource}
    (h : ∀ message, input.Fails message → c.input.Fails message) :
    c.Onward { c with input := input } :=
  ⟨⟨"", by simp⟩, fun message hFails => hFails.imp_right (h message)⟩

theorem onward_readLine (c : Console) : c.Onward c.readLine.2 := by
  unfold readLine
  split
  · exact .refl c
  · exact onward_of_input fun _ h => h.elim
  · next feed hInput =>
    refine onward_of_input fun message h => ?_
    rw [hInput]
    exact (Feed.rest_suffix_readOn feed [] 0).subset h

theorem fails_of_readLine {message : String} (h : c.readLine.1 = .error message) :
    c.Fails message := by
  unfold readLine at h
  split at h
  · cases h
  · cases h
  · next feed hInput =>
    right
    rw [hInput]
    exact Feed.failed_mem_of_readOn h

theorem onward_write (text : String) (c : Console) : c.Onward (c.write text).2 := by
  unfold write
  split
  · next message rest hWrites =>
    refine ⟨⟨"", by simp⟩, fun message h => h.imp_left fun hMem => ?_⟩
    rw [hWrites]
    exact List.mem_cons_of_mem _ hMem
  · exact ⟨⟨text, rfl⟩, fun message h => h.imp_left List.mem_of_mem_tail⟩

theorem fails_of_write {text message : String} (h : (c.write text).1 = .error message) :
    c.Fails message := by
  unfold write at h
  split at h
  · next hWrites =>
    cases h
    left
    rw [hWrites]
    exact List.mem_cons_self
  · cases h

end Console

end Tern
