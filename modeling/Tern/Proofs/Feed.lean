import Mathlib.Data.List.Basic
import Tern.Feed

/-!
# Lines of a feed

The lines that calls read one after another depend on the bytes of the input alone, however these
are mixed with attempts that find nothing ready. Each call takes the bytes of one line and of its
end, and leaves all others to the calls after it.

* `Feed.Whole`: input that comes to its end without a failure;
* `Feed.Cut`: the runs of bytes that line feeds end, and what stands after the last of them;
* `Feed.Gives`, `Feed.Calls`: what one call takes and gives, and what calls after one another do;
* `Feed.readLine_exact`: the calls give the runs, then what is left, then nothing for ever.
-/

namespace Tern.Feed

/-- The bytes of a feed. -/
def bytes (feed : Feed) : List Nat :=
  feed.filterMap fun
    | .byte b => some b
    | _ => none

/-- Input that comes to its end without a failure. No byte comes after the end. -/
inductive Whole : Feed → Prop where
  | ended {feed : Feed} (hEnd : ∀ a ∈ feed, a = .ended ∨ a = .notReady) : Whole feed
  | byte {feed : Feed} (b : Nat) (hRest : Whole feed) : Whole (.byte b :: feed)
  | notReady {feed : Feed} (hRest : Whole feed) : Whole (.notReady :: feed)

/-- Bytes cut into the runs that line feeds end, and what stands after the last line feed. -/
structure Cut (bytes : List Nat) (runs : List (List Nat)) (last : List Nat) : Prop where
  bytes_eq : bytes = runs.flatMap (· ++ [lineFeed]) ++ last
  inside : ∀ run ∈ runs, lineFeed ∉ run
  after : lineFeed ∉ last

/-- A call takes the bytes `taken` off a feed and leaves `rest`. It gives `line`, after one pause
for each attempt that found nothing ready. -/
def Gives (feed : Feed) (taken : List Nat) (line : Option String) (rest : Feed) : Prop :=
  ∃ front : Feed, feed = front ++ rest ∧ front.bytes = taken ∧
    readLine feed = ⟨.ok line, front.count .notReady, rest⟩

/-- Calls one after another, each with the bytes it takes and the line it gives. -/
def Calls : Feed → List (List Nat × Option String) → Prop
  | _, [] => True
  | feed, (taken, line) :: more => ∃ rest, feed.Gives taken line rest ∧ Calls rest more

/-! ## Bytes -/

theorem bytes_over {feed : Feed} (h : ∀ a ∈ feed, a = .ended ∨ a = .notReady) :
    feed.bytes = [] := by
  refine List.filterMap_eq_nil_iff.mpr fun a ha => ?_
  rcases h a ha with rfl | rfl <;> rfl

/-- All bytes can be cut into runs. -/
theorem exists_cut (bytes : List Nat) : ∃ runs last, Cut bytes runs last := by
  induction bytes with
  | nil => exact ⟨[], [], rfl, by simp, by simp⟩
  | cons b bytes ih =>
    obtain ⟨runs, last, rfl, hInside, hAfter⟩ := ih
    by_cases hb : b = lineFeed
    · exact ⟨[] :: runs, last, by simp [hb], by simpa using hInside, hAfter⟩
    · cases runs with
      | nil => exact ⟨[], b :: last, rfl, by simp, by simp [Ne.symm hb, hAfter]⟩
      | cons run runs =>
        obtain ⟨hRun, hRuns⟩ := List.forall_mem_cons.mp hInside
        refine ⟨(b :: run) :: runs, last, rfl, ?_, hAfter⟩
        exact List.forall_mem_cons.mpr ⟨by simp [Ne.symm hb, hRun], hRuns⟩

/-! ## One call -/

/-- Going on after the bytes `before`, which come last to first, a call takes the bytes `taken` and
leaves `rest`. -/
def Reads (before : List Nat) (feed : Feed) (taken : List Nat) (line : Option String)
    (rest : Feed) : Prop :=
  ∃ front : Feed, feed = front ++ rest ∧ front.bytes = taken ∧
    ∀ pauses, readOn before pauses feed = ⟨.ok line, pauses + front.count .notReady, rest⟩

section

variable {before taken run later : List Nat} {feed rest : Feed} {line : Option String} {b : Nat}

theorem Reads.gives (h : Reads [] feed taken line rest) : feed.Gives taken line rest := by
  obtain ⟨front, hFeed, hFront, hRead⟩ := h
  refine ⟨front, hFeed, hFront, ?_⟩
  rw [readLine, hRead, Nat.zero_add]

theorem Reads.notReady (h : Reads before feed taken line rest) :
    Reads before (.notReady :: feed) taken line rest := by
  obtain ⟨front, rfl, hFront, hRead⟩ := h
  refine ⟨.notReady :: front, rfl, hFront, fun pauses => ?_⟩
  rw [readOn, hRead, List.count_cons_self, Nat.add_assoc, Nat.add_comm 1]

theorem Reads.byte (hb : b ≠ lineFeed) (h : Reads (b :: before) feed taken line rest) :
    Reads before (.byte b :: feed) (b :: taken) line rest := by
  obtain ⟨front, rfl, hFront, hRead⟩ := h
  have hReady : Attempt.byte b ≠ .notReady := nofun
  refine ⟨.byte b :: front, rfl, congrArg (b :: ·) hFront, fun pauses => ?_⟩
  rw [readOn, if_neg hb, hRead, List.count_cons_of_ne hReady]

theorem reads_lineFeed : Reads before (.byte lineFeed :: feed) [lineFeed]
    (some (endedLine before.reverse)) feed :=
  ⟨[.byte lineFeed], rfl, rfl, fun pauses => by rw [readOn, if_pos rfl]; rfl⟩

variable (before) in
/-- A call goes on to the first line feed, and takes nothing behind it. -/
theorem reads_run (h : feed.Whole) (hRun : lineFeed ∉ run)
    (hBytes : feed.bytes = run ++ lineFeed :: later) :
    ∃ rest : Feed, rest.Whole ∧ rest.bytes = later ∧
      Reads before feed (run ++ [lineFeed]) (some (endedLine (before.reverse ++ run))) rest := by
  induction h generalizing before run with
  | ended hEnd =>
    rw [bytes_over hEnd] at hBytes
    simp at hBytes
  | @byte feed b hRest ih =>
    cases run with
    | nil =>
      obtain ⟨rfl, hLater⟩ := List.cons.inj hBytes
      rw [List.append_nil]
      exact ⟨feed, hRest, hLater, reads_lineFeed⟩
    | cons b' run =>
      obtain ⟨rfl, hLater⟩ := List.cons.inj hBytes
      obtain ⟨hb, hRun⟩ := not_or.mp (mt List.mem_cons.mpr hRun)
      obtain ⟨rest, hWhole, hRestBytes, hReads⟩ := ih (b :: before) hRun hLater
      rw [List.reverse_cons, List.append_assoc] at hReads
      exact ⟨rest, hWhole, hRestBytes, hReads.byte (Ne.symm hb)⟩
  | notReady hRest ih =>
    obtain ⟨rest, hWhole, hRestBytes, hReads⟩ := ih before hRun hBytes
    exact ⟨rest, hWhole, hRestBytes, hReads.notReady⟩

variable (before) in
/-- At the end of input a call takes no byte, and neither does any call after it. -/
theorem reads_over (h : ∀ a ∈ feed, a = .ended ∨ a = .notReady) :
    ∃ rest : Feed, (∀ a ∈ rest, a = .ended ∨ a = .notReady) ∧
      Reads before feed [] (lastLine before.reverse) rest := by
  induction feed with
  | nil => exact ⟨[], h, [], rfl, rfl, fun _ => rfl⟩
  | cons a feed ih =>
    obtain ⟨ha, hEnd⟩ := List.forall_mem_cons.mp h
    rcases ha with rfl | rfl
    · exact ⟨feed, hEnd, [.ended], rfl, rfl, fun _ => rfl⟩
    · obtain ⟨rest, hOver, hReads⟩ := ih hEnd
      exact ⟨rest, hOver, hReads.notReady⟩

variable (before) in
/-- Where no line feed is left, a call goes on to the end of input. -/
theorem reads_last (h : feed.Whole) (hLast : lineFeed ∉ feed.bytes) :
    ∃ rest : Feed, (∀ a ∈ rest, a = .ended ∨ a = .notReady) ∧
      Reads before feed feed.bytes (lastLine (before.reverse ++ feed.bytes)) rest := by
  induction h generalizing before with
  | ended hEnd =>
    rw [bytes_over hEnd, List.append_nil]
    exact reads_over before hEnd
  | byte b hRest ih =>
    obtain ⟨hb, hLast⟩ := not_or.mp (mt List.mem_cons.mpr hLast)
    obtain ⟨rest, hOver, hReads⟩ := ih (b :: before) hLast
    rw [List.reverse_cons, List.append_assoc] at hReads
    exact ⟨rest, hOver, hReads.byte (Ne.symm hb)⟩
  | notReady hRest ih =>
    obtain ⟨rest, hOver, hReads⟩ := ih before hLast
    exact ⟨rest, hOver, hReads.notReady⟩

end

/-! ## Calls after one another -/

/-- At the end of input every call gives nothing. -/
theorem calls_over {feed : Feed} (h : ∀ a ∈ feed, a = .ended ∨ a = .notReady) (count : Nat) :
    feed.Calls (List.replicate count ([], none)) := by
  induction count generalizing feed with
  | zero => exact trivial
  | succ count ih =>
    obtain ⟨rest, hOver, hReads⟩ := reads_over [] h
    exact ⟨rest, hReads.gives, ih hOver⟩

theorem calls_of_cut {feed : Feed} (h : feed.Whole) {runs : List (List Nat)} {last : List Nat}
    (hCut : Cut feed.bytes runs last) (count : Nat) :
    feed.Calls (runs.map (fun run => (run ++ [lineFeed], some (endedLine run))) ++
      (last, lastLine last) :: List.replicate count ([], none)) := by
  induction runs generalizing feed with
  | nil =>
    obtain ⟨hBytes, -, hAfter⟩ := hCut
    obtain rfl : feed.bytes = last := hBytes
    obtain ⟨rest, hOver, hReads⟩ := reads_last [] h hAfter
    exact ⟨rest, hReads.gives, calls_over hOver count⟩
  | cons run runs ih =>
    obtain ⟨hBytes, hInside, hAfter⟩ := hCut
    obtain ⟨hRun, hRuns⟩ := List.forall_mem_cons.mp hInside
    rw [List.flatMap_cons, List.append_assoc, List.append_assoc, List.singleton_append] at hBytes
    obtain ⟨rest, hWhole, hRest, hReads⟩ := reads_run [] h hRun hBytes
    exact ⟨rest, hReads.gives, ih hWhole ⟨hRest, hRuns, hAfter⟩⟩

/-- The line of a run is its text without one carriage return at the end. -/
theorem endedLine_cases (run : List Nat) :
    Text.Utf8.decode run = endedLine run ++ "\r" ∨
      Text.Utf8.decode run = endedLine run ∧
        (Text.Utf8.decode run).toList.getLast? ≠ some '\r' := by
  unfold endedLine
  dsimp only
  split
  · next hReturn =>
    refine .inl (String.toList_inj.mp ?_)
    obtain ⟨cs, hText⟩ := List.getLast?_eq_some_iff.mp hReturn
    simp [hText]
  · next hNone => exact .inr ⟨by simp, hNone⟩

/-- Reading lines is exact. Any bytes fall into the runs that line feeds end and what stands after
the last of these, and in whatever way the bytes come, mixed with attempts that find nothing
ready and then the end of input, the calls give one line for each run: its text, without one
carriage return at the end. Then comes the text of what is left, if anything is, and nothing ever
after. A call takes the bytes of its line and the line feed, all others stay for the calls after it,
and it pauses once for each attempt that finds nothing ready. -/
theorem readLine_exact (bytes : List Nat) : ∃ runs last, Cut bytes runs last ∧
    (∀ run ∈ runs, Text.Utf8.decode run = endedLine run ++ "\r" ∨
      Text.Utf8.decode run = endedLine run ∧
        (Text.Utf8.decode run).toList.getLast? ≠ some '\r') ∧
    ∀ feed : Feed, feed.Whole → feed.bytes = bytes → ∀ count,
      feed.Calls (runs.map (fun run => (run ++ [lineFeed], some (endedLine run))) ++
        (last, if last = [] then none else some (Text.Utf8.decode last)) ::
          List.replicate count ([], none)) := by
  obtain ⟨runs, last, hCut⟩ := exists_cut bytes
  refine ⟨runs, last, hCut, fun run _ => endedLine_cases run, fun feed hWhole hBytes count => ?_⟩
  exact calls_of_cut hWhole (hBytes ▸ hCut) count

/-- Two lines, the first with a carriage return and with pauses inside and around it; the input ends
twice. -/
theorem readLine_exact_paused :
    ∃ feed : Feed, feed = [.notReady, .byte 104, .notReady, .notReady, .byte 105, .byte 13,
        .byte 10, .byte 97, .byte 13, .notReady, .ended, .notReady, .ended] ∧
      feed.Whole ∧ feed.bytes = [104, 105, 13, 10, 97, 13] ∧
      ∃ runs last, Cut [104, 105, 13, 10, 97, 13] runs last ∧ ∀ count,
        feed.Calls (runs.map (fun run => (run ++ [lineFeed], some (endedLine run))) ++
          (last, if last = [] then none else some (Text.Utf8.decode last)) ::
            List.replicate count ([], none)) := by
  obtain ⟨runs, last, hCut, -, hCalls⟩ := readLine_exact [104, 105, 13, 10, 97, 13]
  have hWhole : Whole [.notReady, .byte 104, .notReady, .notReady, .byte 105, .byte 13, .byte 10,
      .byte 97, .byte 13, .notReady, .ended, .notReady, .ended] :=
    .notReady <| .byte _ <| .notReady <| .notReady <| .byte _ <| .byte _ <| .byte _ <| .byte _ <|
      .byte _ <| .ended (by decide)
  exact ⟨_, rfl, hWhole, by decide, runs, last, hCut, hCalls _ hWhole (by decide)⟩

end Tern.Feed
