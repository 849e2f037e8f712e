import Mathlib.Data.List.TakeWhile
import Tern.CommandLine
import Tern.Proofs.Text.Blank

/-!
# The lines of the interactive loop

The interactive loop cuts its lines into pieces: blank lines that come while nothing is pending, and
entries, which it runs. Nothing else happens to a line before the loop is over, and the loop writes
what the entries write when they are run one after another.

* `Repl.Piece`, `Repl.Ending`: the pieces, and what is behind the last of them;
* `Repl.Entry`, `Repl.Waits`: lines that are run together, and lines that wait for more;
* `Repl.replay`: what is written when pieces are taken one after another;
* `Repl.turns_pieces`: the loop on any lines is the replay of pieces that they consist of.
-/

namespace Tern

/-! ## Reports -/

namespace Report

theorem append_eq (a b : Report) :
    a ++ b = ⟨a.out ++ b.out, a.err ++ b.err, a.failed || b.failed⟩ := rfl

theorem append_assoc (a b c : Report) : a ++ b ++ c = a ++ (b ++ c) := by
  simp only [append_eq, String.append_assoc, Bool.or_assoc]

@[simp]
theorem silent_append (a : Report) : silent ++ a = a := by
  simp [append_eq, silent]

@[simp]
theorem append_silent (a : Report) : a ++ silent = a := by
  simp [append_eq, silent]

end Report

namespace Repl

/-! ## Pieces -/

/-- Lines that belong together. -/
inductive Piece where
  | blank (line : String)
  | entry (lines : List String)

def Piece.lines : Piece → List String
  | blank line => [line]
  | entry lines => lines

/-- What stands behind the pieces of some lines: the input is over while lines are pending, or the
loop is over before all lines are read. That is for a line which ends it, or because running the last
entry broke down. -/
inductive Ending where
  | ended (pending : List String)
  | exit (line : String) (unread : List String)
  | broken (unread : List String)

def Ending.lines : Ending → List String
  | ended pending => pending
  | exit line unread => line :: unread
  | broken unread => unread

def Ending.pending : Ending → List String
  | ended pending => pending
  | exit .. => []
  | broken _ => []

/-- The text of lines. -/
def text (lines : List String) : String :=
  "\n".intercalate lines

/-- A line that is not dropped and does not end the loop while nothing is pending. -/
def Opens (line : String) : Prop :=
  Text.trim line ≠ "" ∧ Text.trim line ≠ exitLine

/-- Lines that wait for more: with each of them the text so far is incomplete. -/
structure Waits (lines : List String) : Prop where
  opens : ∀ line ∈ lines.head?, Opens line
  incomplete : ∀ part, part <+: lines → part ≠ [] → isIncomplete (text part) = true

/-- Lines that are run together: their text is not incomplete, and that of fewer of them is. -/
structure Entry (lines : List String) : Prop where
  opens : ∃ line ∈ lines.head?, Opens line
  incomplete : ∀ part, part <+: lines → part ≠ [] → part ≠ lines → isIncomplete (text part) = true
  complete : isIncomplete (text lines) = false

def Piece.Proper : Piece → Prop
  | blank line => Text.trim line = ""
  | entry lines => Entry lines

/-! ## Replays -/

/-- Runs a text: what is written, and the session after it unless the run broke down. -/
def answer (s : Session) (source : String) : Report × Option Session :=
  let (result, s) := s.run source none
  let (written, s) := s.takeReport
  let report := written ++ shown s result
  (report, if report.failed then none else some s)

/-- The prompts after lines that wait for more. -/
def prompts : Nat → Report
  | 0 => .silent
  | count + 1 => prompts count ++ .print continuation

/-- Takes pieces one after another: what is written, and the session after them unless a run broke
down. Of a piece all lines but the last wait for more. -/
def replay (prompt : String) (s : Session) : List Piece → Report × Option Session
  | [] => (.silent, some s)
  | .blank _ :: rest =>
    let (report, next) := replay prompt s rest
    (.print prompt ++ report, next)
  | .entry lines :: rest =>
    match answer s (text lines) with
    | (written, some s) =>
      let (report, next) := replay prompt s rest
      (prompts (lines.length - 1) ++ written ++ .print prompt ++ report, next)
    | (written, none) => (prompts (lines.length - 1) ++ written, none)

/-- How pieces come to an end in a session: all of them are taken, unless the last entry broke
down. -/
def Ending.Follows (prompt : String) (s : Session) (pieces : List Piece) : Ending → Prop
  | ended pending => Waits pending ∧ (replay prompt s pieces).2.isSome
  | exit line _ => Text.trim line = exitLine ∧ (replay prompt s pieces).2.isSome
  | broken _ => ∃ before lines s', pieces = before ++ [.entry lines] ∧
      (replay prompt s before).2 = some s' ∧ (answer s' (text lines)).2 = none

/-! ## One line -/

section

variable {waiting : List String} {line : String}

theorem waits_nil : Waits [] :=
  ⟨nofun, fun _ hPart hSome => absurd (List.prefix_nil.mp hPart) hSome⟩

theorem Waits.trim_ne (h : Waits waiting) (hSome : waiting ≠ []) : Text.trim (text waiting) ≠ "" := by
  cases waiting with
  | nil => exact absurd rfl hSome
  | cons first rest =>
    have hFirst : Text.trim first ≠ "" := (h.opens first rfl).1
    by_cases hRest : rest = []
    · rwa [hRest, text, String.intercalate_singleton]
    · rw [text, String.intercalate_cons_of_ne_nil hRest, String.append_assoc]
      exact Text.trim_append_ne hFirst _

theorem Waits.text_eq_empty (h : Waits waiting) : text waiting = "" ↔ waiting = [] := by
  refine ⟨fun hEmpty => ?_, fun hNone => hNone ▸ rfl⟩
  by_contra hSome
  exact h.trim_ne hSome (by rw [hEmpty]; decide)

/-- Lines that wait become one text with the next line. -/
theorem Waits.join_eq (h : Waits waiting) : join (text waiting) line = text (waiting ++ [line]) := by
  rw [join]
  by_cases hSome : waiting = []
  · rw [if_pos (h.text_eq_empty.mpr hSome), hSome, List.nil_append, text,
      String.intercalate_singleton]
  · rw [if_neg (mt h.text_eq_empty.mp hSome), text, text,
      String.intercalate_append_of_ne_nil hSome (List.cons_ne_nil line []),
      String.intercalate_singleton]

/-- What a line does to lines that wait: only while there are none can it be dropped or end the
loop. -/
theorem Waits.accept_eq (h : Waits waiting) (line : String) : accept (text waiting) line =
    if waiting = [] ∧ Text.trim line = exitLine then .stop
    else if waiting = [] ∧ Text.trim line = "" then .skip
    else if isIncomplete (text (waiting ++ [line])) then .wait (text (waiting ++ [line]))
    else .run (text (waiting ++ [line])) := by
  have hBlank : Text.trim (text (waiting ++ [line])) = "" ↔ waiting = [] ∧ Text.trim line = "" := by
    rw [← h.join_eq, join]
    by_cases hSome : waiting = []
    · rw [if_pos (h.text_eq_empty.mpr hSome)]
      exact (and_iff_right hSome).symm
    · rw [if_neg (mt h.text_eq_empty.mp hSome), String.append_assoc]
      exact iff_of_false (Text.trim_append_ne (h.trim_ne hSome) _) fun hNone => hSome hNone.1
  simp only [accept, h.join_eq, h.text_eq_empty, hBlank, Bool.and_eq_true, decide_eq_true_eq]

/-- Lines that wait, with a line that leaves their text incomplete. -/
theorem Waits.snoc (h : Waits waiting) (hOpens : waiting = [] → Opens line)
    (hIncomplete : isIncomplete (text (waiting ++ [line])) = true) : Waits (waiting ++ [line]) where
  opens := by
    cases waiting with
    | nil => rintro _ ⟨⟩; exact hOpens rfl
    | cons first rest => exact h.opens
  incomplete part hPart hSome := by
    rcases List.prefix_concat_iff.mp hPart with rfl | hBefore
    · exact hIncomplete
    · exact h.incomplete part hBefore hSome

/-- Lines that wait, with a line that makes their text whole. -/
theorem Waits.entry (h : Waits waiting) (hOpens : waiting = [] → Opens line)
    (hComplete : isIncomplete (text (waiting ++ [line])) = false) : Entry (waiting ++ [line]) where
  opens := by
    cases waiting with
    | nil => exact ⟨line, rfl, hOpens rfl⟩
    | cons first rest => exact ⟨first, rfl, h.opens first rfl⟩
  incomplete part hPart hSome hLess :=
    h.incomplete part ((List.prefix_concat_iff.mp hPart).resolve_left hLess) hSome
  complete := hComplete

end

/-! ## All lines -/

/-- The loop on lines, behind others that wait for more, is the replay of pieces of which all these
lines consist. -/
def Cuts (prompt : String) (s : Session) (waiting lines : List String) : Prop :=
  ∃ (pieces : List Piece) (ending : Ending),
    waiting ++ lines = pieces.flatMap Piece.lines ++ ending.lines ∧
    (∀ piece ∈ pieces, piece.Proper) ∧ ending.Follows prompt s pieces ∧
    prompts waiting.length ++ turns ⟨s, prompt, text waiting⟩ lines =
      (replay prompt s pieces).1 ++ prompts ending.pending.length

section

variable {prompt line source : String} {s s' : Session} {written : Report} {pieces : List Piece}
  {waiting lines rest : List String} {ending : Ending}

theorem turns_run {r : Repl} (h : accept r.pending line = .run source) : r.turns (line :: rest) =
    match answer r.session source with
    | (written, some s) => written ++ .print r.prompt ++ turns ⟨s, r.prompt, ""⟩ rest
    | (written, none) => written := by
  simp only [turns, turn, h, answer]
  split_ifs with hFailed
  · rfl
  · rfl

theorem replay_entry (h : answer s (text lines) = (written, some s')) :
    replay prompt s (.entry lines :: pieces) =
      (prompts (lines.length - 1) ++ written ++ .print prompt ++ (replay prompt s' pieces).1,
        (replay prompt s' pieces).2) := by
  rw [replay, h]

theorem Ending.Follows.blank (h : ending.Follows prompt s pieces) :
    ending.Follows prompt s (.blank line :: pieces) := by
  cases ending with
  | ended pending => exact h
  | exit line unread => exact h
  | broken unread =>
    obtain ⟨before, lines, s', rfl, hBefore, hAnswer⟩ := h
    exact ⟨.blank line :: before, lines, s', rfl, hBefore, hAnswer⟩

theorem Ending.Follows.entry (hAnswer : answer s (text lines) = (written, some s'))
    (h : ending.Follows prompt s' pieces) : ending.Follows prompt s (.entry lines :: pieces) := by
  cases ending with
  | ended pending => exact ⟨h.1, by rw [replay_entry hAnswer]; exact h.2⟩
  | exit line unread => exact ⟨h.1, by rw [replay_entry hAnswer]; exact h.2⟩
  | broken unread =>
    obtain ⟨before, last, s'', rfl, hBefore, hLast⟩ := h
    exact ⟨.entry lines :: before, last, s'', rfl, by rw [replay_entry hAnswer]; exact hBefore, hLast⟩

theorem cuts_nil (h : Waits waiting) : Cuts prompt s waiting [] := by
  refine ⟨[], .ended waiting, List.append_nil _, nofun, ⟨h, rfl⟩, ?_⟩
  rw [turns, replay, Report.append_silent, Report.silent_append]
  rfl

theorem cuts_exit (hLine : Text.trim line = exitLine) (hAccept : accept (text []) line = .stop) :
    Cuts prompt s [] (line :: rest) := by
  refine ⟨[], .exit line rest, rfl, nofun, ⟨hLine, rfl⟩, ?_⟩
  rw [turns, turn, hAccept]
  rfl

theorem cuts_blank (hLine : Text.trim line = "") (hAccept : accept (text []) line = .skip)
    (h : Cuts prompt s [] rest) : Cuts prompt s [] (line :: rest) := by
  obtain ⟨pieces, ending, hLines, hProper, hFollows, hTurns⟩ := h
  refine ⟨.blank line :: pieces, ending, congrArg (line :: ·) hLines,
    List.forall_mem_cons.mpr ⟨hLine, hProper⟩, hFollows.blank, ?_⟩
  have hSkip : turns ⟨s, prompt, text []⟩ (line :: rest) =
      .print prompt ++ turns ⟨s, prompt, ""⟩ rest := by
    rw [turns, turn, hAccept]
  rw [hSkip, replay, Report.append_assoc, ← hTurns]
  rfl

theorem cuts_wait (hAccept : accept (text waiting) line = .wait (text (waiting ++ [line])))
    (h : Cuts prompt s (waiting ++ [line]) rest) : Cuts prompt s waiting (line :: rest) := by
  obtain ⟨pieces, ending, hLines, hProper, hFollows, hTurns⟩ := h
  rw [List.append_assoc, List.singleton_append] at hLines
  refine ⟨pieces, ending, hLines, hProper, hFollows, ?_⟩
  have hWait : turns ⟨s, prompt, text waiting⟩ (line :: rest) =
      .print continuation ++ turns ⟨s, prompt, text (waiting ++ [line])⟩ rest := by
    rw [turns, turn, hAccept]
  rw [hWait, ← hTurns, List.length_append, List.length_singleton, prompts, Report.append_assoc]

theorem cuts_broken (hEntry : Entry (waiting ++ [line]))
    (hAccept : accept (text waiting) line = .run (text (waiting ++ [line])))
    (hAnswer : answer s (text (waiting ++ [line])) = (written, none)) :
    Cuts prompt s waiting (line :: rest) := by
  refine ⟨[.entry (waiting ++ [line])], .broken rest, ?_, List.forall_mem_singleton.mpr hEntry,
    ⟨[], waiting ++ [line], s, rfl, rfl, by rw [hAnswer]⟩, ?_⟩
  · rw [List.flatMap_singleton, Piece.lines, List.append_assoc]
    rfl
  · have hRun : turns ⟨s, prompt, text waiting⟩ (line :: rest) = written :=
      (turns_run hAccept).trans (by rw [hAnswer])
    rw [hRun, replay, hAnswer, List.length_append, List.length_singleton, Nat.add_sub_cancel]
    exact (Report.append_silent _).symm

theorem cuts_entry (hEntry : Entry (waiting ++ [line]))
    (hAccept : accept (text waiting) line = .run (text (waiting ++ [line])))
    (hAnswer : answer s (text (waiting ++ [line])) = (written, some s'))
    (h : Cuts prompt s' [] rest) : Cuts prompt s waiting (line :: rest) := by
  obtain ⟨pieces, ending, hLines, hProper, hFollows, hTurns⟩ := h
  refine ⟨.entry (waiting ++ [line]) :: pieces, ending, ?_,
    List.forall_mem_cons.mpr ⟨hEntry, hProper⟩, hFollows.entry hAnswer, ?_⟩
  · rw [List.flatMap_cons, Piece.lines, List.append_assoc _ _ ending.lines, ← hLines,
      List.append_assoc]
    rfl
  · have hRun : turns ⟨s, prompt, text waiting⟩ (line :: rest) =
        written ++ .print prompt ++ turns ⟨s', prompt, ""⟩ rest :=
      (turns_run hAccept).trans (by rw [hAnswer])
    rw [hRun, replay_entry hAnswer, List.length_append, List.length_singleton, Nat.add_sub_cancel,
      Report.append_assoc _ _ (prompts _), ← hTurns]
    simp only [Report.append_assoc]
    rfl

end

/-- The loop on any lines, behind others that wait for more. -/
theorem Waits.cuts (prompt : String) (lines : List String) (s : Session) {waiting : List String}
    (h : Waits waiting) : Cuts prompt s waiting lines := by
  induction lines generalizing s waiting with
  | nil => exact cuts_nil h
  | cons line lines ih =>
    have hAccept := h.accept_eq line
    split_ifs at hAccept with hExit hBlank hIncomplete
    · obtain ⟨rfl, hLine⟩ := hExit
      exact cuts_exit hLine hAccept
    · obtain ⟨rfl, hLine⟩ := hBlank
      exact cuts_blank hLine hAccept (ih s waits_nil)
    all_goals
      have hOpens : waiting = [] → Opens line := fun hNone =>
        ⟨fun hLine => hBlank ⟨hNone, hLine⟩, fun hLine => hExit ⟨hNone, hLine⟩⟩
    · exact cuts_wait hAccept (ih s (h.snoc hOpens hIncomplete))
    · have hEntry := h.entry hOpens (Bool.eq_false_iff.mpr hIncomplete)
      rcases hAnswer : answer s (text (waiting ++ [line])) with ⟨written, _ | s'⟩
      · exact cuts_broken hEntry hAccept hAnswer
      · exact cuts_entry hEntry hAccept hAnswer (ih s' waits_nil)

/-- The loop neither loses, nor repeats, nor reorders a line. Its lines are blank ones that come
while nothing is pending and entries, in order, and behind them what is pending when the input is
over, or the line that ends the loop while nothing is pending, with all that is not read after
it. Only when running an entry breaks down the loop is over without such an end. An entry is not
incomplete, but any fewer of its lines are. The loop runs the entries one after another and writes
what they write. A line that comes while others are pending is never taken for the one that ends the
loop. -/
theorem turns_pieces (s : Session) (prompt : String) (lines : List String) :
    (∃ (pieces : List Piece) (ending : Ending),
      lines = pieces.flatMap Piece.lines ++ ending.lines ∧
      (∀ piece ∈ pieces, piece.Proper) ∧ ending.Follows prompt s pieces ∧
      turns ⟨s, prompt, ""⟩ lines =
        (replay prompt s pieces).1 ++ prompts ending.pending.length) ∧
    ∀ waiting, Waits waiting → waiting ≠ [] → ∀ line, accept (text waiting) line =
      if isIncomplete (text (waiting ++ [line])) then .wait (text (waiting ++ [line]))
      else .run (text (waiting ++ [line])) := by
  refine ⟨?_, fun waiting hWaits hSome line => ?_⟩
  · obtain ⟨pieces, ending, hLines, hProper, hFollows, hTurns⟩ := waits_nil.cuts prompt lines s
    exact ⟨pieces, ending, hLines, hProper, hFollows, hTurns⟩
  · rw [hWaits.accept_eq, if_neg fun h => hSome h.1, if_neg fun h => hSome h.1]

/-- Inside of a call the line that would end the loop is the name of a member. -/
theorem turns_pieces_member : Waits ["f(a"] ∧
    accept (text ["f(a"]) exitLine = .wait (text ["f(a", exitLine]) := by
  have hWaits : Waits ["f(a"] := by
    refine ⟨fun line hLine => ?_, fun part hPart hSome => ?_⟩
    · obtain rfl : "f(a" = line := Option.some.inj hLine
      exact ⟨by decide, by decide⟩
    · obtain rfl : part = ["f(a"] :=
        (List.prefix_cons_iff.mp hPart).elim (absurd · hSome) fun ⟨rest, hRest, hNone⟩ => by
          rw [hRest, List.prefix_nil.mp hNone]
      decide +kernel
  refine ⟨hWaits, ?_⟩
  have hAccept := (turns_pieces (CommandLine.openSession .default (.ofLines [])) "" []).2 ["f(a"] hWaits
    (List.cons_ne_nil _ _) exitLine
  rwa [if_pos (by decide +kernel)] at hAccept

end Repl

end Tern
